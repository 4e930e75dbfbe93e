import Mathlib
import OsAllHw.Lib.Bytes

/-!
# The system calls under the allocators

`sbrk`, `mmap` and `munmap` as `malloc_2.cpp` to `malloc_4.cpp` use them.
The kernel's free choices are an `Os`: where the data segment starts and
how far it may grow, which `sbrk` calls are refused, and what each `mmap`
call answers. Nothing else moves the break.

The kernel keeps the two areas apart: a mapping never lies inside the
range the break can reach, and two mappings never overlap.
-/

namespace OsAllHw.Malloc

/-- The kernel's choices over a whole run of the process. -/
structure Os where
  /-- The program break when the process starts. -/
  brk0 : Nat
  /-- The highest address the break may reach. -/
  limit : Nat
  /-- Whether the `n`-th `sbrk` call is refused (`ENOMEM`) though it would fit. -/
  sbrkRefuses : Nat → Bool
  /-- What the `n`-th `mmap` call proposes (`none`: it fails). -/
  mmapAt : Nat → Option Nat
  brk0_pos : 0 < brk0
  brk0_le : brk0 ≤ limit
  limit_lt : limit < 2 ^ 64

/-- A kernel with a terabyte for the break, which maps nothing. -/
def Os.refusing (sbrkRefuses : Nat → Bool) : Os where
  brk0 := 4096
  limit := 2 ^ 40
  sbrkRefuses := sbrkRefuses
  mmapAt := fun _ => none
  brk0_pos := by decide
  brk0_le := by decide
  limit_lt := by decide

/-- The process's memory map as the kernel sees it. -/
structure Kernel where
  brk : Nat
  sbrkCalls : Nat
  sbrkFailures : Nat
  mmapCalls : Nat
  /-- Live mappings: address and length. -/
  maps : List (Nat × Nat)
  /-- Every `munmap` call made, the latest first. -/
  munmaps : List (Nat × Nat)

def Kernel.init (os : Os) : Kernel :=
  { brk := os.brk0, sbrkCalls := 0, sbrkFailures := 0, mmapCalls := 0,
    maps := [], munmaps := [] }

/-- `size_t` arithmetic wraps modulo `2 ^ 64`. -/
@[irreducible] def sizeT (n : Nat) : Nat := n % 2 ^ 64

/-- `a - b` on `size_t`. -/
@[irreducible] def subT (a b : Nat) : Nat := (a + (2 ^ 64 - b)) % 2 ^ 64

/-- A `size_t` passed where an `intptr_t` is expected. -/
@[irreducible] def toIntptr (n : Nat) : Int := if n < 2 ^ 63 then n else n - 2 ^ 64

theorem sizeT_of_lt {n : Nat} (h : n < 2 ^ 64) : sizeT n = n := by
  unfold sizeT
  exact Nat.mod_eq_of_lt h

theorem subT_of_le {a b : Nat} (h : b ≤ a) (ha : a < 2 ^ 64) : subT a b = a - b := by
  unfold subT
  omega

theorem toIntptr_of_lt {n : Nat} (h : n < 2 ^ 63) : toIntptr n = n := by
  unfold toIntptr
  exact if_pos h

/-- `sbrk(incr)`: the old break, or `none` for `(void*)-1`. -/
def sbrk (os : Os) (k : Kernel) (incr : Int) : Option Nat × Kernel :=
  if os.sbrkRefuses k.sbrkCalls = false ∧ (os.brk0 : Int) ≤ k.brk + incr ∧
      k.brk + incr ≤ os.limit then
    (some k.brk, { k with brk := (k.brk + incr).toNat, sbrkCalls := k.sbrkCalls + 1 })
  else
    (none, { k with sbrkCalls := k.sbrkCalls + 1, sbrkFailures := k.sbrkFailures + 1 })

/-- The kernel after a refused `sbrk`. -/
def Kernel.refused (k : Kernel) : Kernel :=
  { k with sbrkCalls := k.sbrkCalls + 1, sbrkFailures := k.sbrkFailures + 1 }

/-- The kernel after the break has moved up by `n`. -/
def Kernel.moved (k : Kernel) (n : Nat) : Kernel :=
  { k with brk := k.brk + n, sbrkCalls := k.sbrkCalls + 1 }

/-- An `sbrk` that only grows the segment is refused or moves the break. -/
theorem sbrk_cases (os : Os) (k : Kernel) {n : Nat} (hn : n < 2 ^ 63) :
    sbrk os k (toIntptr n) = (none, k.refused) ∨
      k.brk + n ≤ os.limit ∧ sbrk os k (toIntptr n) = (some k.brk, k.moved n) := by
  rw [toIntptr_of_lt hn, sbrk]
  split
  · rename_i h
    refine .inr ⟨by omega, ?_⟩
    rw [Kernel.moved, ← Nat.cast_add, Int.toNat_natCast]
  · exact .inl rfl

/-- `sbrk(n)` would succeed. -/
def Granted (os : Os) (k : Kernel) (n : Nat) : Prop := (sbrk os k (toIntptr n)).1 ≠ none

instance (os : Os) (k : Kernel) (n : Nat) : Decidable (Granted os k n) :=
  inferInstanceAs (Decidable (_ ≠ _))

theorem Granted.moves {os : Os} {k : Kernel} {n : Nat} (h : Granted os k n) (hn : n < 2 ^ 63) :
    sbrk os k (toIntptr n) = (some k.brk, k.moved n) := by
  rcases sbrk_cases os k hn with hsb | ⟨-, hsb⟩
  · rw [Granted, hsb] at h
    exact absurd rfl h
  · exact hsb

/-- Where a new mapping may go: page aligned, off the data segment and
off every other mapping. -/
def mmapFits (os : Os) (k : Kernel) (a len : Nat) : Prop :=
  a % 4096 = 0 ∧ 0 < a ∧ a + len < 2 ^ 64 ∧ (a + len ≤ os.brk0 ∨ os.limit ≤ a) ∧
    ∀ r ∈ k.maps, a + len ≤ r.1 ∨ r.1 + r.2 ≤ a

instance (os : Os) (k : Kernel) (a len : Nat) : Decidable (mmapFits os k a len) := by
  unfold mmapFits; infer_instance

/-- `mmap(NULL, len, PROT_WRITE | PROT_READ, MAP_ANONYMOUS | MAP_PRIVATE, -1, 0)`:
the address, or `none` for `(void*)-1`. -/
def mmap (os : Os) (k : Kernel) (len : Nat) : Option Nat × Kernel :=
  match os.mmapAt k.mmapCalls with
  | some a =>
      if mmapFits os k a len then
        (some a, { k with mmapCalls := k.mmapCalls + 1, maps := (a, len) :: k.maps })
      else (none, { k with mmapCalls := k.mmapCalls + 1 })
  | none => (none, { k with mmapCalls := k.mmapCalls + 1 })

/-- `munmap(a, len)` on a whole mapping. -/
def munmap (k : Kernel) (a len : Nat) : Kernel :=
  { k with maps := k.maps.erase (a, len), munmaps := (a, len) :: k.munmaps }

end OsAllHw.Malloc
