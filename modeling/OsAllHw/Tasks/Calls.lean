import OsAllHw.Tasks.Ancestor
import OsAllHw.Tasks.Descendants

/-!
# Runs of the system calls

Any task may make any of the four calls, in any order. The calls read and
write one store, the weights: what a call returns is given by the tree of
tasks and by the weight that each task set last.
-/

namespace OsAllHw.Tasks

inductive Syscall where
  | setWeight (weight : Int32)
  | getWeight
  | getChildrenSum
  | getHeaviestAncestor
  deriving DecidableEq

/-- What a call by `current` returns and leaves; `none` for a returned value:
it was never set. The whole is `none` where it is out of fuel. -/
def syscall (fuel : Nat) (tasks : Memory) (current : Nat) :
    Syscall → Option (Option Int × Memory)
  | .setWeight weight =>
      let x := sysSetWeight tasks current weight
      some (some x.1, x.2)
  | .getWeight => some (some (sysGetWeight tasks current), tasks)
  | .getChildrenSum => (sysGetChildrenSum tasks current fuel).map fun sum => (some sum, tasks)
  | .getHeaviestAncestor =>
      (sysGetHeaviestAncestor tasks current fuel).map fun pid => (pid.map Int32.toInt, tasks)

/-- What each of the calls returns, made one after the other, each by its
task. -/
def returns (fuel : Nat) : Memory → List (Nat × Syscall) → Option (List (Option Int))
  | _, [] => some []
  | tasks, e :: calls =>
      (syscall fuel tasks e.1 e.2).bind fun x =>
        (returns fuel x.2 calls).map fun rest => x.1 :: rest

/-! ## What the calls are for -/

/-- The tasks above one, itself first, and those below it. -/
structure Tree where
  pid : Nat → Int32
  above : Nat → List Nat
  below : Nat → List Nat

/-- The task has its place in the tree, and there is fuel to walk from it. -/
structure Tree.Places (tree : Tree) (tasks : Memory) (fuel task : Nat) : Prop where
  above : Chain tasks task (tree.above task)
  below : Descendants tasks task (tree.below task)
  pid : ∀ a, (tasks a).pid = tree.pid a
  fuel_above : (tree.above task).length ≤ fuel
  fuel_below : (tree.below task).length < fuel

/-- The answer to a call, over the weights as integers: the heaviest task is
the nearest of them, and it has no answer where that is `current`. -/
noncomputable def Tree.answer (tree : Tree) (weights : Nat → Int) (current : Nat) :
    Syscall → Option Int
  | .setWeight weight => some (if weight < 0 then -EINVAL else 0)
  | .getWeight => some (weights current)
  | .getChildrenSum =>
      if tree.below current = [] then some (-ECHILD)
      else some ((∑ a ∈ (tree.below current).toFinset, weights a).bmod (2 ^ 32))
  | .getHeaviestAncestor =>
      (((tree.above current).argmax weights).filter (· ≠ current)).map fun a =>
        (tree.pid a).toInt

/-- The weight that a call gives to a task. -/
def given (task : Nat) (e : Nat × Syscall) : Option Int :=
  match e.2 with
  | .setWeight weight => if e.1 = task ∧ ¬weight < 0 then some weight.toInt else none
  | _ => none

def weights (tasks : Memory) (a : Nat) : Int := (tasks a).weight.toInt

/-- The weight given last, or else the one the task began with. -/
def lastWeight (start : Nat → Int) (calls : List (Nat × Syscall)) (task : Nat) : Int :=
  (calls.filterMap (given task)).getLastD (start task)

/-! ## The tree stays -/

/-- The tasks differ in their weights only. -/
structure SameTree (tasks tasks' : Memory) : Prop where
  pid : ∀ a, (tasks' a).pid = (tasks a).pid
  parent : ∀ a, (tasks' a).parent = (tasks a).parent
  children : ∀ a, (tasks' a).children = (tasks a).children

section SameTree

variable {tasks tasks' : Memory} {tree : Tree} {fuel current task : Nat} {l : List Nat}

theorem SameTree.refl (tasks : Memory) : SameTree tasks tasks :=
  ⟨fun _ => rfl, fun _ => rfl, fun _ => rfl⟩

theorem sysSetWeight_sameTree (tasks : Memory) (current : Nat) (weight : Int32) :
    SameTree tasks (sysSetWeight tasks current weight).2 := by
  unfold sysSetWeight
  split
  · exact .refl tasks
  · constructor
    all_goals
      intro a
      by_cases ha : a = current <;> simp [ha]

theorem Chain.same (h : Chain tasks task l) (hs : SameTree tasks tasks') :
    Chain tasks' task l := by
  induction h with
  | init hpid => exact .init ((hs.pid _).trans hpid)
  | up hpid _ ih =>
      apply Chain.up
      · rwa [hs.pid]
      · rwa [hs.parent]

theorem Forest.same {siblings : List Nat} (h : Forest tasks siblings l)
    (hs : SameTree tasks tasks') : Forest tasks' siblings l := by
  induction h with
  | nil => exact .nil
  | cons _ _ ihBelow ihRest =>
      rw [← hs.children] at ihBelow
      exact .cons ihBelow ihRest

theorem Descendants.same (h : Descendants tasks task l) (hs : SameTree tasks tasks') :
    Descendants tasks' task l where
  forest := by
    rw [hs.children]
    exact h.forest.same hs
  nodup := h.nodup

theorem Tree.Places.same (h : tree.Places tasks fuel task) (hs : SameTree tasks tasks') :
    tree.Places tasks' fuel task where
  above := h.above.same hs
  below := h.below.same hs
  pid a := (hs.pid a).trans (h.pid a)
  fuel_above := h.fuel_above
  fuel_below := h.fuel_below

end SameTree

/-! ## One call -/

section Call

variable {tasks : Memory} {tree : Tree} {fuel current : Nat}

/-- The walk keeps the first of the heaviest tasks it has seen. -/
theorem foldl_visit (tasks : Memory) (current : Nat) (l : List Nat) :
    ∃ a, (current :: l).argmax (weights tasks) = some a ∧
      weights tasks current ≤ weights tasks a ∧
      (current :: l).foldl (fun (best : Best) b => best.visit (tasks b))
          ⟨(tasks current).weight, none⟩ =
        ⟨(tasks a).weight, if a = current then none else some (tasks a).pid⟩ := by
  induction l using List.reverseRecOn with
  | nil => exact ⟨current, by simp, le_rfl, by simp [Best.visit]⟩
  | append_singleton l b ih =>
      obtain ⟨a, hmax, hle, hfold⟩ := ih
      rw [← List.cons_append, List.argmax_concat, hmax, List.foldl_append, hfold]
      by_cases hlt : weights tasks a < weights tasks b
      · -- `current` is not heavier than `a`, so `b` is another task
        have hne : b ≠ current := by
          rintro rfl
          exact absurd hlt hle.not_gt
        refine ⟨b, if_pos hlt, hle.trans hlt.le, ?_⟩
        rw [if_neg hne]
        exact if_pos (Int32.lt_iff_toInt_lt.mpr hlt)
      · refine ⟨a, if_neg hlt, hle, ?_⟩
        exact if_neg fun h => hlt (Int32.lt_iff_toInt_lt.mp h)

theorem Chain.eq_cons {l : List Nat} (h : Chain tasks current l) :
    ∃ rest, l = current :: rest := by
  cases h with
  | init _ => exact ⟨_, rfl⟩
  | up _ _ => exact ⟨_, rfl⟩

theorem sysGetHeaviestAncestor_eq (h : tree.Places tasks fuel current) :
    (sysGetHeaviestAncestor tasks current fuel).map (fun pid => pid.map Int32.toInt) =
      some (tree.answer (weights tasks) current .getHeaviestAncestor) := by
  obtain ⟨rest, habove⟩ := h.above.eq_cons
  obtain ⟨a, hmax, -, hfold⟩ := foldl_visit tasks current rest
  rw [sysGetHeaviestAncestor, walkAncestors_eq h.above h.fuel_above, Tree.answer, habove, hmax,
    hfold]
  by_cases ha : a = current
  · simp [ha]
  · simp [ha, h.pid a]

theorem sysGetChildrenSum_eq (h : tree.Places tasks fuel current) :
    (sysGetChildrenSum tasks current fuel).map some =
      some (tree.answer (weights tasks) current .getChildrenSum) := by
  have hforest := h.below.forest
  by_cases hnil : (tasks current).children = []
  · have hbelow : tree.below current = [] := by
      rw [hnil] at hforest
      generalize tree.below current = below at hforest
      cases hforest
      rfl
    rw [sysGetChildrenSum, if_neg (not_not.mpr hnil), Tree.answer, if_pos hbelow, Option.map_some]
  · have hbelow : tree.below current ≠ [] := by
      intro hbelow
      rw [hbelow] at hforest
      generalize (tasks current).children = siblings at hforest hnil
      cases hforest
      exact hnil rfl
    have hsum : sumWeights tasks (tree.below current) =
        ∑ a ∈ (tree.below current).toFinset, weights tasks a := h.below.sumWeights
    rw [sysGetChildrenSum, if_pos hnil, calculateSumOfChildren_eq hforest h.fuel_below,
      Tree.answer, if_neg hbelow, ← hsum, Option.map_some, Option.map_some, Int32.add_comm,
      Int32.add_sub_cancel, Int32.toInt_ofInt]
    rfl

theorem weights_sysSetWeight (tasks : Memory) (current : Nat) (weight : Int32) (a : Nat) :
    weights (sysSetWeight tasks current weight).2 a =
      (given a (current, .setWeight weight)).getD (weights tasks a) := by
  unfold sysSetWeight given weights
  by_cases hneg : weight < 0
  · simp [hneg]
  · by_cases ha : a = current
    · simp [hneg, ha]
    · simp [hneg, ha, Ne.symm ha]

/-- **One call**: the answer over the weights there are, and after it the same
tree with the weights given. -/
theorem syscall_eq (h : tree.Places tasks fuel current) (c : Syscall) :
    ∃ tasks', syscall fuel tasks current c =
        some (tree.answer (weights tasks) current c, tasks') ∧
      SameTree tasks tasks' ∧
      ∀ a, weights tasks' a = (given a (current, c)).getD (weights tasks a) := by
  cases c with
  | setWeight weight =>
      refine ⟨_, ?_, sysSetWeight_sameTree tasks current weight,
        weights_sysSetWeight tasks current weight⟩
      rw [syscall, Tree.answer, sysSetWeight]
      split <;> rfl
  | getWeight => exact ⟨tasks, rfl, .refl tasks, fun _ => rfl⟩
  | getChildrenSum =>
      obtain ⟨sum, hsum, heq⟩ := Option.map_eq_some_iff.mp (sysGetChildrenSum_eq h)
      refine ⟨tasks, ?_, .refl tasks, fun _ => rfl⟩
      rw [syscall, hsum, Option.map_some, heq]
  | getHeaviestAncestor =>
      obtain ⟨pid, hpid, heq⟩ := Option.map_eq_some_iff.mp (sysGetHeaviestAncestor_eq h)
      refine ⟨tasks, ?_, .refl tasks, fun _ => rfl⟩
      rw [syscall, hpid, Option.map_some, heq]

end Call

/-! ## Runs -/

theorem lastWeight_cons (start : Nat → Int) (e : Nat × Syscall) (calls : List (Nat × Syscall)) :
    lastWeight start (e :: calls) =
      lastWeight (fun a => (given a e).getD (start a)) calls := by
  ext a
  show ((e :: calls).filterMap (given a)).getLastD (start a) =
    (calls.filterMap (given a)).getLastD ((given a e).getD (start a))
  cases hgiven : given a e with
  | none => rw [List.filterMap_cons_none hgiven, Option.getD_none]
  | some weight => rw [List.filterMap_cons_some hgiven, List.getLastD_cons, Option.getD_some]

/-- **The calls keep a store of weights**: whatever calls any tasks make, and
in whatever order, each returns the answer over the weights that the tasks set
last before it, a refused one left out. -/
theorem calls_answered {tree : Tree} {fuel : Nat} {calls : List (Nat × Syscall)}
    {tasks : Memory} (h : ∀ e ∈ calls, tree.Places tasks fuel e.1) :
    ∃ rs, returns fuel tasks calls = some rs ∧ rs.length = calls.length ∧
      ∀ before e after, calls = before ++ e :: after →
        rs[before.length]? =
          some (tree.answer (lastWeight (weights tasks) before) e.1 e.2) := by
  induction calls generalizing tasks with
  | nil => exact ⟨[], rfl, rfl, fun before e after heq => by simp at heq⟩
  | cons e calls ih =>
      obtain ⟨tasks', hcall, hsame, hweights⟩ := syscall_eq (h e List.mem_cons_self) e.2
      obtain ⟨rs, hrs, hlen, hall⟩ := ih fun e' he' =>
        (h e' (List.mem_cons_of_mem _ he')).same hsame
      refine ⟨tree.answer (weights tasks) e.1 e.2 :: rs, ?_, by simp [hlen], ?_⟩
      · rw [returns, hcall, Option.bind_some, hrs, Option.map_some]
      · intro before e' after heq
        cases before with
        | nil =>
            obtain ⟨rfl, -⟩ := List.cons.inj heq
            rfl
        | cons b before =>
            obtain ⟨rfl, hrest⟩ := List.cons.inj heq
            rw [lastWeight_cons, ← funext hweights, List.length_cons, List.getElem?_cons_succ]
            exact hall before e' after hrest

/-- The tree of `family`. -/
def familyTree : Tree where
  pid a := if a = 0 then 30 else if a = 1 then 20 else 1
  above a := [0, 1, 2].drop a
  below a := ([0, 1, 2].take a).reverse

theorem familyTree_places (first second third : Int32) {task : Nat} (h : task < 3) :
    familyTree.Places (family first second third) 3 task where
  above := by
    have hlast : Chain (family first second third) 2 [2] := .init rfl
    have hsecond : Chain (family first second third) 1 [1, 2] := .up (by simp [family]) hlast
    interval_cases task
    · exact family_chain first second third
    · exact hsecond
    · exact hlast
  below := by
    have hfirst : Forest (family first second third) [0] ((0 :: []) ++ []) :=
      .cons .nil .nil
    have hsecond : Forest (family first second third) [1] ((1 :: [0]) ++ []) :=
      .cons hfirst .nil
    interval_cases task
    · exact ⟨.nil, by decide⟩
    · exact ⟨hfirst, by decide⟩
    · exact ⟨hsecond, by decide⟩
  pid a := by
    rcases a with _ | _ | a
    · rfl
    · rfl
    · rfl
  fuel_above := by simp [familyTree]
  fuel_below := by
    simp [familyTree]
    omega

theorem calls_answered_family : ∃ rs,
    returns 3 (family 3 7 5) [(0, .setWeight 9), (1, .setWeight (-1)), (2, .getChildrenSum),
      (0, .getHeaviestAncestor), (1, .getHeaviestAncestor)] = some rs ∧ rs.length = 5 ∧
    ∀ before e after, [(0, .setWeight 9), (1, .setWeight (-1)), (2, .getChildrenSum),
        (0, .getHeaviestAncestor), (1, .getHeaviestAncestor)] = before ++ e :: after →
      rs[before.length]? =
        some (familyTree.answer (lastWeight (weights (family 3 7 5)) before) e.1 e.2) :=
  calls_answered fun e he => familyTree_places 3 7 5 (by
    revert e
    decide)

example : returns 3 (family 3 7 5) [(0, .getHeaviestAncestor), (0, .setWeight 9),
      (2, .getChildrenSum), (0, .getHeaviestAncestor)] =
    some [some 20, some 0, some 16, none] := by decide

end OsAllHw.Tasks
