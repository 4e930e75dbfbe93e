import Mathlib

/-!
# Task weights

The system calls of `hw2.c` that set and read a task's weight, and the part
of `struct task_struct` they and the two walks over the task tree use. A
`struct task_struct*` is an address; the list of children is in the order of
its `list_head`s. The C types `int` and `pid_t` are 32-bit; the kernel is
built so that `int` arithmetic wraps.
-/

namespace OsAllHw.Tasks

structure TaskStruct where
  weight : Int32
  pid : Int32
  parent : Nat
  children : List Nat

/-- The tasks in memory. -/
abbrev Memory := Nat → TaskStruct

def ECHILD : Int := 10

def EINVAL : Int := 22

/-- What the call returns and leaves. -/
def sysSetWeight (tasks : Memory) (current : Nat) (weight : Int32) : Int × Memory :=
  if weight < 0 then (-EINVAL, tasks)
  else (0, Function.update tasks current { tasks current with weight := weight })

def sysGetWeight (tasks : Memory) (current : Nat) : Int := (tasks current).weight.toInt

/-- Every weight is one that `sys_set_weight` admits. -/
def Weighted (tasks : Memory) : Prop := ∀ a, 0 ≤ (tasks a).weight.toInt

/-- No weight becomes negative. -/
theorem Weighted.sysSetWeight {tasks : Memory} (h : Weighted tasks) (current : Nat)
    (weight : Int32) : Weighted (sysSetWeight tasks current weight).2 := by
  unfold Tasks.sysSetWeight
  split
  · exact h
  · rename_i hneg
    intro a
    by_cases ha : a = current
    · subst ha
      simpa [Int32.lt_iff_toInt_lt] using hneg
    · simpa [ha] using h a

end OsAllHw.Tasks
