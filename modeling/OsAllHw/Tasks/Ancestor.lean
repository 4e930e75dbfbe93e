import Mathlib
import OsAllHw.Tasks.Weights

/-!
# The heaviest ancestor

`sys_get_heaviest_ancestor` walks from `current` to the task with pid 1. It
starts the maximum at the weight of `current`, and sets `max_pid` only where
a task is strictly heavier: where none is, the value it returns was never set.
-/

namespace OsAllHw.Tasks

/-- The maximum and its task's pid so far; `none`: `max_pid` is not set. -/
structure Best where
  max : Int32
  maxPid : Option Int32
  deriving DecidableEq

/-- The `if` of the loop body. -/
def Best.visit (best : Best) (task : TaskStruct) : Best :=
  if best.max < task.weight then ⟨task.weight, some task.pid⟩ else best

/-- The `do` loop; `none`: out of fuel. -/
def walkAncestors (tasks : Memory) : Nat → Nat → Best → Option Best
  | 0, _, _ => none
  | fuel + 1, task, best =>
      let prev := task
      let best := best.visit (tasks task)
      let task := (tasks task).parent
      if (tasks prev).pid ≠ 1 then walkAncestors tasks fuel task best else some best

/-- The returned `max_pid`. -/
def sysGetHeaviestAncestor (tasks : Memory) (current fuel : Nat) : Option (Option Int32) :=
  (walkAncestors tasks fuel current ⟨(tasks current).weight, none⟩).map Best.maxPid

/-! ## What the walk is for -/

/-- The tasks from one up to the first with pid 1. -/
inductive Chain (tasks : Memory) : Nat → List Nat → Prop
  | init {task : Nat} : (tasks task).pid = 1 → Chain tasks task [task]
  | up {task : Nat} {rest : List Nat} : (tasks task).pid ≠ 1 →
      Chain tasks (tasks task).parent rest → Chain tasks task (task :: rest)

/-- The value is set, to the pid of a heaviest task of the list. -/
def Heaviest (tasks : Memory) (l : List Nat) (result : Option Int32) : Prop :=
  ∃ a ∈ l, result = some (tasks a).pid ∧
    ∀ b ∈ l, (tasks b).weight.toInt ≤ (tasks a).weight.toInt

/-- Some task of the list is strictly heavier than `current`. -/
def Outweighed (tasks : Memory) (current : Nat) (l : List Nat) : Prop :=
  ∃ a ∈ l, (tasks current).weight.toInt < (tasks a).weight.toInt

/-! ## The loop -/

/-- On a chain the walk ends and has visited its tasks in order. -/
theorem walkAncestors_eq {tasks : Memory} {task : Nat} {l : List Nat}
    (h : Chain tasks task l) {fuel : Nat} (hfuel : l.length ≤ fuel) (best : Best) :
    walkAncestors tasks fuel task best =
      some (l.foldl (fun best a => best.visit (tasks a)) best) := by
  induction h generalizing fuel best with
  | init hpid =>
      obtain ⟨fuel, rfl⟩ : ∃ n, fuel = n + 1 := ⟨fuel - 1, by simp at hfuel; omega⟩
      rw [walkAncestors, if_neg (not_not.mpr hpid)]
      rfl
  | up hpid _ ih =>
      obtain ⟨fuel, rfl⟩ : ∃ n, fuel = n + 1 := ⟨fuel - 1, by simp at hfuel; omega⟩
      rw [walkAncestors, if_pos hpid, ih (by simpa using hfuel)]
      rfl

/-- The loop invariant: `start` is the weight the walk began with, `seen` the
tasks visited so far. -/
structure Best.Recorded (tasks : Memory) (start : Int32) (seen : List Nat) (best : Best) :
    Prop where
  bound : ∀ a ∈ seen, (tasks a).weight.toInt ≤ best.max.toInt
  unset : best.maxPid = none → best.max = start
  set : ∀ pid ∈ best.maxPid, start.toInt < best.max.toInt ∧
    ∃ a ∈ seen, pid = (tasks a).pid ∧ best.max = (tasks a).weight

theorem Best.recorded_start (tasks : Memory) (start : Int32) :
    Best.Recorded tasks start [] ⟨start, none⟩ where
  bound _ ha := absurd ha List.not_mem_nil
  unset _ := rfl
  set _ hpid := nomatch hpid

theorem Best.Recorded.visit {tasks : Memory} {start : Int32} {seen : List Nat} {best : Best}
    (h : best.Recorded tasks start seen) (hstart : start.toInt ≤ best.max.toInt) (a : Nat) :
    (best.visit (tasks a)).Recorded tasks start (seen ++ [a]) ∧
      start.toInt ≤ (best.visit (tasks a)).max.toInt := by
  unfold Best.visit
  split
  · rename_i hlt
    have hlt : best.max.toInt < (tasks a).weight.toInt := Int32.lt_iff_toInt_lt.mp hlt
    refine ⟨⟨fun b hb => ?_, fun hnone => (nomatch hnone), fun pid hpid => ?_⟩, ?_⟩
    · rcases List.mem_append.mp hb with hb | hb
      · exact (h.bound b hb).trans hlt.le
      · rw [List.mem_singleton.mp hb]
    · exact ⟨hstart.trans_lt hlt, a, by simp, (Option.some.inj hpid).symm, rfl⟩
    · exact hstart.trans hlt.le
  · rename_i hle
    have hle : (tasks a).weight.toInt ≤ best.max.toInt := by
      rw [Int32.lt_iff_toInt_lt] at hle
      omega
    refine ⟨⟨fun b hb => ?_, h.unset, fun pid hpid => ?_⟩, hstart⟩
    · rcases List.mem_append.mp hb with hb | hb
      · exact h.bound b hb
      · rwa [List.mem_singleton.mp hb]
    · obtain ⟨hlt, b, hb, hset⟩ := h.set pid hpid
      exact ⟨hlt, b, List.mem_append_left _ hb, hset⟩

theorem Best.Recorded.walk {tasks : Memory} {start : Int32} (l : List Nat)
    {seen : List Nat} {best : Best} (h : best.Recorded tasks start seen)
    (hstart : start.toInt ≤ best.max.toInt) :
    (l.foldl (fun best a => best.visit (tasks a)) best).Recorded tasks start (seen ++ l) := by
  induction l generalizing seen best with
  | nil => rwa [List.append_nil]
  | cons a l ih =>
      obtain ⟨hvisit, hle⟩ := h.visit hstart a
      rw [List.append_cons]
      exact ih hvisit hle

/-- What the invariant says once the whole chain has been visited. -/
theorem Best.Recorded.heaviest_iff {tasks : Memory} {current : Nat} {l : List Nat} {best : Best}
    (h : best.Recorded tasks (tasks current).weight l) :
    Heaviest tasks l best.maxPid ↔ Outweighed tasks current l := by
  constructor
  · rintro ⟨a, -, hset, -⟩
    obtain ⟨hlt, b, hb, -, hmax⟩ := h.set _ hset
    exact ⟨b, hb, hmax ▸ hlt⟩
  · rintro ⟨a, ha, hlt⟩
    cases hpid : best.maxPid with
    | none =>
        have hle := h.bound a ha
        rw [h.unset hpid] at hle
        omega
    | some pid =>
        obtain ⟨-, b, hb, rfl, hmax⟩ := h.set pid hpid
        exact ⟨b, hb, rfl, fun c hc => hmax ▸ h.bound c hc⟩

/-- **When the walk finds a heaviest task**: on every chain it ends, and its
value is right exactly where some ancestor outweighs `current`. -/
theorem heaviest_ancestor {tasks : Memory} {current : Nat} {l : List Nat}
    (h : Chain tasks current l) :
    ∃ result, (∀ fuel, l.length ≤ fuel →
        sysGetHeaviestAncestor tasks current fuel = some result) ∧
      (Heaviest tasks l result ↔ Outweighed tasks current l) := by
  have hwalk := (Best.recorded_start tasks (tasks current).weight).walk l le_rfl
  refine ⟨_, fun fuel hfuel => ?_, hwalk.heaviest_iff⟩
  rw [sysGetHeaviestAncestor, walkAncestors_eq h hfuel, Option.map_some]

/-- Three tasks; the second is the heaviest. -/
def family (first second third : Int32) : Memory
  | 0 => ⟨first, 30, 1, []⟩
  | 1 => ⟨second, 20, 2, [0]⟩
  | _ => ⟨third, 1, 2, [1]⟩

theorem family_chain (first second third : Int32) :
    Chain (family first second third) 0 [0, 1, 2] :=
  .up (by simp [family]) (.up (by simp [family]) (.init rfl))

theorem heaviest_ancestor_second : ∃ result, (∀ fuel, 3 ≤ fuel →
      sysGetHeaviestAncestor (family 3 7 5) 0 fuel = some result) ∧
    (Heaviest (family 3 7 5) [0, 1, 2] result ↔ Outweighed (family 3 7 5) 0 [0, 1, 2]) :=
  heaviest_ancestor (family_chain 3 7 5)

/-- Every weight is 0, as before the first `sys_set_weight`: the value
returned was never set. -/
theorem max_pid_unset : Chain (family 0 0 0) 0 [0, 1, 2] ∧ Weighted (family 0 0 0) ∧
    sysGetHeaviestAncestor (family 0 0 0) 0 3 = some none ∧
    ¬Heaviest (family 0 0 0) [0, 1, 2] none := by
  refine ⟨family_chain 0 0 0, fun a => ?_, rfl, ?_⟩
  · match a with
    | 0 => decide
    | 1 => decide
    | _ + 2 => exact le_rfl
  · rintro ⟨a, -, hset, -⟩
    exact nomatch hset

end OsAllHw.Tasks
