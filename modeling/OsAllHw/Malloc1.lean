import OsAllHw.Lib.Arrays
import OsAllHw.Malloc.Kernel

/-!
# `malloc_1.cpp`

The first allocator has one call, which moves the break. Its blocks have no
header and are never released; they lie in the data segment one after the
other.
-/

namespace OsAllHw.Malloc1

open Lib
open OsAllHw.Malloc (Os Kernel sbrk toIntptr sbrk_cases)

/-- The largest request. -/
abbrev maxRequest : Nat := 100000000

def smalloc (os : Os) (k : Kernel) (size : Nat) : Nat × Kernel :=
  if size = 0 ∨ maxRequest < size then (0, k)
  else match sbrk os k (toIntptr size) with
    | (none, k) => (0, k)
    | (some oldProgBrk, k) => (oldProgBrk, k)

inductive Event where
  | smalloc (size : Nat)
  /-- The client stores a byte at `p + off`. -/
  | write (p off : Nat) (byte : UInt8)
  deriving DecidableEq

structure World where
  mem : Mem
  kernel : Kernel
  /-- The pointers returned with the sizes asked for, the latest first. -/
  blocks : List (Nat × Nat)

def World.init (os : Os) (mem : Mem) : World := ⟨mem, .init os, []⟩

/-- How many bytes were asked for at `p`. -/
def World.sizeOf (w : World) (p : Nat) : Nat := (w.blocks.lookup p).getD 0

/-- No event faults. -/
def exec (os : Os) (w : World) : Event → Except Empty World
  | .smalloc size =>
      let x := smalloc os w.kernel size
      .ok ⟨w.mem, x.2, if x.1 = 0 then w.blocks else (x.1, size) :: w.blocks⟩
  | .write p off byte => .ok { w with mem := Function.update w.mem (p + off) byte }

/-- Writes stay inside a block. -/
def Legal (w : World) : Event → Prop
  | .smalloc _ => True
  | .write p off _ => p ∈ w.blocks.map Prod.fst ∧ off < w.sizeOf p

instance (w : World) : (e : Event) → Decidable (Legal w e)
  | .smalloc _ => .isTrue trivial
  | .write _ _ _ => inferInstanceAs (Decidable (_ ∧ _))

def Event.request : Event → Arrays.Op UInt8
  | .smalloc size => .alloc size none
  | .write p off byte => .store p off byte

/-- What an event asked for, with the pointer it got. -/
def answer (os : Os) (w : World) (e : Event) : Arrays.Op UInt8 × Nat :=
  (e.request,
    match e with
    | .smalloc size => (smalloc os w.kernel size).1
    | .write _ _ _ => 0)

def World.view (w : World) : Arrays.View UInt8 := ⟨w.blocks.map Prod.fst, w.sizeOf, w.mem⟩

/-- The blocks fill the segment from `lo` to `hi`, the last one first. -/
def Fills (lo : Nat) : List (Nat × Nat) → Nat → Prop
  | [], hi => hi = lo
  | b :: blocks, hi => 0 < b.2 ∧ hi = b.1 + b.2 ∧ Fills lo blocks b.1

/-- The blocks fill the segment. -/
structure Inv (os : Os) (w : World) : Prop where
  fills : Fills os.brk0 w.blocks w.kernel.brk
  brk_le : w.kernel.brk ≤ os.limit

section Fills

variable {os : Os} {w : World} {blocks : List (Nat × Nat)} {lo hi p n : Nat}

theorem Fills.bounds (h : Fills lo blocks hi) :
    lo ≤ hi ∧ ∀ b ∈ blocks, lo ≤ b.1 ∧ 0 < b.2 ∧ b.1 + b.2 ≤ hi := by
  induction blocks generalizing hi with
  | nil => exact ⟨h.ge, fun b hb => absurd hb List.not_mem_nil⟩
  | cons a blocks ih =>
      obtain ⟨hpos, rfl, hrest⟩ := h
      obtain ⟨hle, hall⟩ := ih hrest
      refine ⟨by omega, fun b hb => ?_⟩
      obtain rfl | hb := List.mem_cons.mp hb
      · exact ⟨hle, hpos, le_rfl⟩
      · have := hall b hb
        omega

/-- Two blocks are apart. -/
theorem Fills.apart (h : Fills lo blocks hi) {b c : Nat × Nat} (hb : b ∈ blocks)
    (hc : c ∈ blocks) : b = c ∨ b.1 + b.2 ≤ c.1 ∨ c.1 + c.2 ≤ b.1 := by
  induction blocks generalizing hi with
  | nil => exact absurd hb List.not_mem_nil
  | cons a blocks ih =>
      obtain ⟨hpos, rfl, hrest⟩ := h
      obtain rfl | hb' := List.mem_cons.mp hb
      · obtain rfl | hc' := List.mem_cons.mp hc
        · exact .inl rfl
        · exact .inr (.inr (hrest.bounds.2 c hc').2.2)
      · obtain rfl | hc' := List.mem_cons.mp hc
        · exact .inr (.inl (hrest.bounds.2 b hb').2.2)
        · exact ih hrest hb' hc'

/-- A pointer has one size. -/
theorem Fills.lookup (h : Fills lo blocks hi) {b : Nat × Nat} (hb : b ∈ blocks) :
    blocks.lookup b.1 = some b.2 := by
  induction blocks generalizing hi with
  | nil => exact absurd hb List.not_mem_nil
  | cons a blocks ih =>
      obtain ⟨hpos, rfl, hrest⟩ := h
      obtain rfl | hb := List.mem_cons.mp hb
      · exact List.lookup_cons_self
      · have hlt := hrest.bounds.2 b hb
        rw [List.lookup_cons, show (b.1 == a.1) = false by simp; omega]
        exact ih hrest hb

theorem Inv.sizeOf (h : Inv os w) {b : Nat × Nat} (hb : b ∈ w.blocks) : w.sizeOf b.1 = b.2 := by
  rw [World.sizeOf, h.fills.lookup hb]
  rfl

/-- **`smalloc`**: refused, or the block at the break. -/
theorem smalloc_cases (os : Os) (k : Kernel) (size : Nat) :
    (smalloc os k size).1 = 0 ∧ (smalloc os k size).2.brk = k.brk ∨
      0 < size ∧ k.brk + size ≤ os.limit ∧ smalloc os k size = (k.brk, k.moved size) := by
  rw [smalloc]
  by_cases hsize : size = 0 ∨ maxRequest < size
  · rw [if_pos hsize]
    exact .inl ⟨rfl, rfl⟩
  · rw [if_neg hsize]
    have hmax : maxRequest = 100000000 := rfl
    obtain hsb | ⟨hlim, hsb⟩ := sbrk_cases os k (n := size) (by omega)
    · rw [hsb]
      exact .inl ⟨rfl, rfl⟩
    · rw [hsb]
      exact .inr ⟨by omega, hlim, rfl⟩

end Fills

/-! ## Runs -/

section Runs

variable {os : Os} {w : World} {e : Event}

/-- **One event** serves what it asks for. -/
theorem Inv.exec_serves (h : Inv os w) (he : Legal w e) :
    Outcome (fun w' => Inv os w' ∧
        Arrays.Serves w.view (answer os w e).1 (answer os w e).2 w'.view) (fun _ => False)
      (exec os w e) := by
  cases e with
  | smalloc size =>
      obtain ⟨hnull, hbrk⟩ | ⟨hpos, hlim, hrun⟩ := smalloc_cases os w.kernel size
      · simp only [exec, answer, Event.request, hnull, if_true]
        exact ⟨⟨hbrk ▸ h.fills, hbrk.le.trans h.brk_le⟩, .null (fun x => Iff.rfl)
          fun x hx => ⟨hx, rfl, fun _ _ => rfl⟩⟩
      · have hbrk0 := h.fills.bounds.1
        have hne : w.kernel.brk ≠ 0 := by
          have := os.brk0_pos
          omega
        -- every block ends at the break or before it
        have hbelow : ∀ x ∈ w.blocks.map Prod.fst, x < w.kernel.brk := by
          intro x hx
          obtain ⟨b, hb, rfl⟩ := List.mem_map.mp hx
          have := h.fills.bounds.2 b hb
          omega
        simp only [exec, answer, Event.request, hrun, if_neg hne]
        refine ⟨⟨⟨hpos, rfl, h.fills⟩, hlim⟩, .alloc hne ?_ (fun x => List.mem_cons)
          (fun x hx => ⟨List.mem_cons_of_mem _ hx, ?_, fun _ _ => rfl⟩) ?_ (by simp)⟩
        · exact fun hx => Nat.lt_irrefl _ (hbelow _ hx)
        · have hlt := hbelow x hx
          simp only [World.view, World.sizeOf, List.lookup_cons]
          rw [show (x == w.kernel.brk) = false by simp; omega]
        · simp [World.view, World.sizeOf]
  | write p off byte =>
      obtain ⟨hp, hoff⟩ := he
      refine ⟨⟨h.fills, h.brk_le⟩, .store hp (fun x => Iff.rfl) (fun x hx hne => ?_) rfl
        (Function.update_self ..) fun j _ hj => Function.update_of_ne (by omega) _ _⟩
      refine ⟨hx, rfl, fun i hi => Function.update_of_ne ?_ _ _⟩
      obtain ⟨b, hb, rfl⟩ := List.mem_map.mp hp
      obtain ⟨c, hc, rfl⟩ := List.mem_map.mp hx
      have hi' : i < w.sizeOf c.1 := hi
      rw [h.sizeOf hb] at hoff
      rw [h.sizeOf hc] at hi'
      obtain rfl | hapart | hapart := h.fills.apart hb hc
      · exact absurd rfl hne
      · omega
      · omega

end Runs

/-- A run from the start of the process. -/
def run (os : Os) (mem : Mem) (es : List Event) : Except Empty World :=
  runFrom (exec os) (.init os mem) es

/-- What the events of a run asked for, and the pointers they got. -/
def calls (os : Os) (mem : Mem) (es : List Event) : List (Arrays.Op UInt8 × Nat) :=
  transcript (exec os) (answer os) (.init os mem) es

/-- **The break is a memory**: after any run of a client that stays inside its
blocks, whatever `sbrk` refuses, the blocks fill the segment without a gap, and
each byte that was ever set is there as it was set last. -/
theorem naive_is_memory (os : Os) (mem : Mem) (es : List Event)
    (h : Along (exec os) Legal (.init os mem) es) :
    ∃ w, run os mem es = .ok w ∧ Fills os.brk0 w.blocks w.kernel.brk ∧
      ∃ a, runFrom Arrays.call .init (calls os mem es) = .ok a ∧ Arrays.Shows w.view a := by
  have hinit : Inv os (.init os mem) := ⟨rfl, os.brk0_le⟩
  have hinv : Outcome (Inv os) (fun _ => False) (run os mem es) :=
    runFrom_outcome (fun w e hw he => (hw.exec_serves he).imp (fun _ h => h.1) fun _ hf => hf)
      hinit h
  obtain ⟨w, hw, hfills⟩ := hinv.exists_ok
  have hshows : Outcome _ (fun _ => False) (run os mem es) :=
    Arrays.Shows.runs World.view (fun _ _ hw he => hw.exec_serves he) hinit (.init rfl) h
  rw [hw] at hshows
  exact ⟨w, hw, hfills.fills, hshows⟩

theorem naive_is_memory_two : ∃ w, run (.refusing fun n => n == 1) (fun _ => 0)
      [.smalloc 10, .write 4096 9 1, .smalloc 20, .smalloc 30] = .ok w ∧
    Fills 4096 w.blocks w.kernel.brk ∧
      ∃ a, runFrom Arrays.call .init (calls (.refusing fun n => n == 1) (fun _ => 0)
        [.smalloc 10, .write 4096 9 1, .smalloc 20, .smalloc 30]) = .ok a ∧
        Arrays.Shows w.view a :=
  naive_is_memory (.refusing fun n => n == 1) (fun _ => 0) _ (by decide +kernel)

end OsAllHw.Malloc1
