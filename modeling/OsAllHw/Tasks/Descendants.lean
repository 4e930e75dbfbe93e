import Mathlib
import OsAllHw.Tasks.Weights

/-!
# The sum over the descendants

`calculate_sum_of_children` recurses over the tree below a task and adds the
weights in `int`. What `sys_get_children_sum` returns is the sum modulo 2^32,
read as a signed value: it is the sum itself as long as that is below 2^31.
-/

namespace OsAllHw.Tasks

/-- `none`: out of fuel. -/
def calculateSumOfChildren (tasks : Memory) : Nat → Nat → Option Int32
  | 0, _ => none
  | fuel + 1, currentTask =>
      (tasks currentTask).children.foldlM
        (fun sum task => (calculateSumOfChildren tasks fuel task).map fun n => sum + n)
        (tasks currentTask).weight

def sysGetChildrenSum (tasks : Memory) (current fuel : Nat) : Option Int :=
  if (tasks current).children ≠ [] then
    (calculateSumOfChildren tasks fuel current).map fun sum =>
      (sum - (tasks current).weight).toInt
  else some (-ECHILD)

/-! ## What the sum is for -/

/-- The tasks below and including those of a list of siblings, each task
before those below it. -/
inductive Forest (tasks : Memory) : List Nat → List Nat → Prop
  | nil : Forest tasks [] []
  | cons {task : Nat} {below siblings rest : List Nat} :
      Forest tasks (tasks task).children below → Forest tasks siblings rest →
      Forest tasks (task :: siblings) (task :: below ++ rest)

/-- The strict descendants of a task in a finite tree. -/
structure Descendants (tasks : Memory) (root : Nat) (ds : List Nat) : Prop where
  forest : Forest tasks (tasks root).children ds
  nodup : (root :: ds).Nodup

def totalWeight (tasks : Memory) (ds : Finset Nat) : Int :=
  ∑ a ∈ ds, (tasks a).weight.toInt

/-- The result is an error exactly for a task without children, the exact
sum for every other, and its sign says which. -/
structure Exact (tasks : Memory) (current : Nat) (ds : Finset Nat) (result : Int) : Prop where
  error : result = -ECHILD ↔ (tasks current).children = []
  sum : (tasks current).children ≠ [] → result = totalWeight tasks ds
  sign : result < 0 ↔ (tasks current).children = []

/-! ## The recursion -/

def sumWeights (tasks : Memory) (ds : List Nat) : Int :=
  (ds.map fun a => (tasks a).weight.toInt).sum

theorem sumWeights_cons (tasks : Memory) (a : Nat) (ds : List Nat) :
    sumWeights tasks (a :: ds) = (tasks a).weight.toInt + sumWeights tasks ds := by
  simp [sumWeights]

theorem sumWeights_append (tasks : Memory) (ds ds' : List Nat) :
    sumWeights tasks (ds ++ ds') = sumWeights tasks ds + sumWeights tasks ds' := by
  simp [sumWeights]

theorem Descendants.sumWeights {tasks : Memory} {root : Nat} {ds : List Nat}
    (h : Descendants tasks root ds) :
    sumWeights tasks ds = totalWeight tasks ds.toFinset :=
  (List.sum_toFinset _ (List.nodup_cons.mp h.nodup).2).symm

/-- The loop over a list of siblings adds the weights of the whole forest,
wrapping. -/
theorem foldlM_calculateSumOfChildren {tasks : Memory} {siblings ds : List Nat}
    (h : Forest tasks siblings ds) {fuel : Nat} (hfuel : ds.length ≤ fuel) (sum : Int32) :
    siblings.foldlM
        (fun sum task => (calculateSumOfChildren tasks fuel task).map fun n => sum + n) sum =
      some (sum + Int32.ofInt (sumWeights tasks ds)) := by
  induction h generalizing fuel sum with
  | nil => simp [sumWeights]
  | @cons task below siblings rest _ _ ihBelow ihRest =>
      have hlen : below.length + 1 + rest.length ≤ fuel := by
        simpa [Nat.add_assoc, Nat.add_comm, Nat.add_left_comm] using hfuel
      obtain ⟨fuel, rfl⟩ : ∃ n, fuel = n + 1 := ⟨fuel - 1, by omega⟩
      have htask : calculateSumOfChildren tasks (fuel + 1) task =
          some ((tasks task).weight + Int32.ofInt (sumWeights tasks below)) :=
        ihBelow (by omega) _
      rw [List.foldlM_cons, htask, Option.map_some, Option.bind_eq_bind, Option.bind_some,
        ihRest (by omega), List.cons_append, sumWeights_cons, sumWeights_append,
        Int32.ofInt_add, Int32.ofInt_add, Int32.ofInt_toInt]
      simp only [Int32.add_assoc]

theorem calculateSumOfChildren_eq {tasks : Memory} {root : Nat} {ds : List Nat}
    (h : Forest tasks (tasks root).children ds) {fuel : Nat} (hfuel : ds.length < fuel) :
    calculateSumOfChildren tasks fuel root =
      some ((tasks root).weight + Int32.ofInt (sumWeights tasks ds)) := by
  obtain ⟨fuel, rfl⟩ : ∃ n, fuel = n + 1 := ⟨fuel - 1, by omega⟩
  exact foldlM_calculateSumOfChildren h (by omega) _

theorem Weighted.sumWeights_nonneg {tasks : Memory} (h : Weighted tasks) (ds : List Nat) :
    0 ≤ sumWeights tasks ds :=
  List.sum_nonneg fun _ hx => by
    obtain ⟨a, -, rfl⟩ := List.mem_map.mp hx
    exact h a

/-- What is left of the sum in 32 bits is the sum, while it fits. -/
theorem toInt_ofInt_eq_iff {n : Int} (h : 0 ≤ n) :
    (Int32.ofInt n).toInt = n ↔ n < 2 ^ 31 := by
  rw [Int32.toInt_ofInt]
  constructor
  · intro heq
    have hlt : n.bmod Int32.size < (Int32.size + 1) / 2 := Int.bmod_lt (by decide)
    rwa [heq] at hlt
  · intro hlt
    have hhalf : ((Int32.size : Int) + 1) / 2 = 2 ^ 31 := rfl
    refine Int.bmod_eq_of_le ?_ (hhalf ▸ hlt)
    exact le_trans (by decide) h

/-- **When the sum is exact**: on every finite tree the recursion ends, and
its result is right exactly where the weights add up to an `int`. -/
theorem children_sum {tasks : Memory} {current : Nat} {ds : List Nat}
    (hw : Weighted tasks) (h : Descendants tasks current ds) :
    ∃ result, (∀ fuel, ds.length < fuel →
        sysGetChildrenSum tasks current fuel = some result) ∧
      (Exact tasks current ds.toFinset result ↔ totalWeight tasks ds.toFinset < 2 ^ 31) := by
  rw [← h.sumWeights]
  by_cases hnil : (tasks current).children = []
  · refine ⟨-ECHILD, fun fuel _ => if_neg (not_not.mpr hnil), ?_⟩
    have hds : ds = [] := by
      have hforest := h.forest
      rw [hnil] at hforest
      cases hforest
      rfl
    subst hds
    refine ⟨fun _ => by simp [sumWeights], fun _ => ⟨?_, fun hne => absurd hnil hne, ?_⟩⟩
    · exact ⟨fun _ => hnil, fun _ => rfl⟩
    · exact ⟨fun _ => hnil, fun _ => by decide⟩
  · have hnonneg := hw.sumWeights_nonneg ds
    refine ⟨(Int32.ofInt (sumWeights tasks ds)).toInt, fun fuel hfuel => ?_, ?_⟩
    · rw [sysGetChildrenSum, if_pos hnil, calculateSumOfChildren_eq h.forest hfuel,
        Option.map_some, Int32.add_comm,
        Int32.add_sub_cancel]
    · rw [← toInt_ofInt_eq_iff hnonneg]
      refine ⟨fun hexact => (hexact.sum hnil).trans h.sumWeights.symm, fun heq => ?_⟩
      refine ⟨⟨fun herr => ?_, fun hc => absurd hc hnil⟩, fun _ => heq.trans h.sumWeights,
        ⟨fun hneg => ?_, fun hc => absurd hc hnil⟩⟩
      · rw [heq, ECHILD] at herr
        omega
      · omega

/-- A task with two children. -/
def twoChildren (first second : Int32) : Memory
  | 0 => ⟨5, 10, 3, [1, 2]⟩
  | 1 => ⟨first, 11, 0, []⟩
  | 2 => ⟨second, 12, 0, []⟩
  | _ => ⟨0, 1, 3, [0]⟩

theorem twoChildren_weighted {first second : Int32} (h : 0 ≤ first.toInt)
    (h' : 0 ≤ second.toInt) : Weighted (twoChildren first second)
  | 0 => show 0 ≤ (5 : Int32).toInt by decide
  | 1 => h
  | 2 => h'
  | _ + 3 => le_rfl

theorem twoChildren_descendants (first second : Int32) :
    Descendants (twoChildren first second) 0 [1, 2] where
  forest := by
    show Forest _ [1, 2] ((1 :: []) ++ ((2 :: []) ++ []))
    exact .cons .nil (.cons .nil .nil)
  nodup := by decide

theorem children_sum_two : ∃ result, (∀ fuel, 2 < fuel →
      sysGetChildrenSum (twoChildren 3 4) 0 fuel = some result) ∧
    (Exact (twoChildren 3 4) 0 [1, 2].toFinset result ↔
      totalWeight (twoChildren 3 4) [1, 2].toFinset < 2 ^ 31) :=
  children_sum (twoChildren_weighted (by decide) (by decide)) (twoChildren_descendants 3 4)

/-- Two weights of 2^30 add up to a negative value. -/
theorem children_sum_wraps :
    let tasks := twoChildren 1073741824 1073741824
    Weighted tasks ∧ Descendants tasks 0 [1, 2] ∧
      sysGetChildrenSum tasks 0 3 = some (-2147483648) ∧
      ¬Exact tasks 0 [1, 2].toFinset (-2147483648) := by
  refine ⟨twoChildren_weighted (by decide) (by decide), twoChildren_descendants _ _, by decide, ?_⟩
  exact fun h => absurd (h.sign.mp (by decide)) (by decide)

end OsAllHw.Tasks
