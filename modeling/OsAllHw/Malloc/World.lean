import OsAllHw.Malloc.Mapped

/-!
# A client of the allocator

The world is the heap and the pointers the client holds. Its events are the
four calls and client writes. `Inv` is the invariant of every run: the heap
list is a block list (`Rep`), mapped blocks are where they should be
(`Mapped`), the client holds exactly the payloads of allocated blocks, and
as long as no `sbrk` was refused the counter and the break are accounted
for by the blocks.
-/

namespace OsAllHw.Malloc

open Lib

structure World where
  heap : Heap
  /-- Pointers returned and not released since. -/
  live : List Nat

/-- The process at start: the static variables are zero, memory is arbitrary. -/
def World.init (os : Os) (mem : Mem) : World where
  heap :=
    { mem := mem, allListHead := 0, allListEnd := 0, freeHistogram := fun _ => 0,
      numOfMetadatas := 0, mmapedBlocksNum := 0, mmapedBytesNum := 0, kernel := .init os }
  live := []

inductive Event where
  | smalloc (size : Nat)
  | scalloc (num size : Nat)
  | srealloc (oldp size : Nat)
  | sfree (p : Nat)
  /-- The client stores a byte at `p + off`. -/
  | write (p off : Nat) (byte : UInt8)
  deriving DecidableEq

/-- A pointer handed to the client. -/
def World.give (w : World) (x : Nat × Heap) : World :=
  ⟨x.2, if x.1 = 0 then w.live else x.1 :: w.live⟩

def exec (v : Version) (os : Os) (w : World) : Event → Except Fault World
  | .smalloc size => do return w.give (← smalloc v os w.heap size)
  | .scalloc num size => do return w.give (← scalloc v os w.heap num size)
  | .srealloc oldp size => do
      let x ← srealloc v os w.heap oldp size
      -- on failure the old block stays the client's
      return ⟨x.2, if x.1 = 0 then w.live else x.1 :: w.live.erase oldp⟩
  | .sfree p => do return ⟨← sfree w.heap p, w.live.erase p⟩
  | .write p off byte =>
      .ok ⟨{ w.heap with mem := Function.update w.heap.mem (p + off) byte }, w.live⟩

/-- `p->size` of the block whose payload is at `p`. -/
def World.sizeOf (w : World) (p : Nat) : Nat := w.heap.get .size (p - metaSize)

/-- What the client must respect: arguments are 64-bit, pointers are `NULL`
or live, writes stay inside a live payload. -/
def Legal (w : World) : Event → Prop
  | .smalloc size => IsWord size
  | .scalloc num size => IsWord num ∧ IsWord size
  | .srealloc oldp size => (oldp = 0 ∨ oldp ∈ w.live) ∧ IsWord size
  | .sfree p => p = 0 ∨ p ∈ w.live
  | .write p off _ => p ∈ w.live ∧ off < w.sizeOf p

instance (v : Nat) : Decidable (IsWord v) := inferInstanceAs (Decidable (v < 2 ^ 64))

instance (w : World) : (e : Event) → Decidable (Legal w e)
  | .smalloc _ => inferInstanceAs (Decidable (IsWord _))
  | .scalloc _ _ => inferInstanceAs (Decidable (_ ∧ _))
  | .srealloc _ _ => inferInstanceAs (Decidable (_ ∧ _))
  | .sfree _ => inferInstanceAs (Decidable (_ ∨ _))
  | .write _ _ _ => inferInstanceAs (Decidable (_ ∧ _))

/-- All (rounded) requests are below `MMAP_SIZE`. -/
def Small (v : Version) : Event → Prop
  | .smalloc size => v.round size < mmapSize
  | .scalloc num size => v.round (sizeT (num * size)) < mmapSize
  | .srealloc _ size => v.round size < mmapSize
  | .sfree _ => True
  | .write _ _ _ => True

instance (v : Version) : (e : Event) → Decidable (Small v e)
  | .smalloc _ => inferInstanceAs (Decidable (_ < _))
  | .scalloc _ _ => inferInstanceAs (Decidable (_ < _))
  | .srealloc _ _ => inferInstanceAs (Decidable (_ < _))
  | .sfree _ => .isTrue trivial
  | .write _ _ _ => .isTrue trivial

/-- The calls and writes that may change the block of `p`. -/
def Event.touches : Event → Set Nat
  | .srealloc oldp _ => {oldp}
  | .sfree p => {p}
  | .write p _ _ => {p}
  | _ => ∅

/-! ## Neighbours

What the code reads off the list links of a block, before a call. -/

/-- Bytes a free left neighbour would add to the block at `m`. -/
def Heap.freeLeft (s : Heap) (m : Nat) : Nat :=
  if s.get .listPrev m ≠ 0 ∧ s.isFree (s.get .listPrev m) = true then
    s.get .size (s.get .listPrev m) + metaSize
  else 0

/-- Bytes a free right neighbour would add to the block at `m`. -/
def Heap.freeRight (s : Heap) (m : Nat) : Nat :=
  if s.get .listNext m ≠ 0 ∧ s.isFree (s.get .listNext m) = true then
    s.get .size (s.get .listNext m) + metaSize
  else 0

/-- Releasing the block of `p` does not join a block of `MMAP_SIZE` bytes. -/
def World.JoinFits (w : World) (p : Nat) : Prop :=
  w.sizeOf p < mmapSize →
    w.heap.freeLeft (p - metaSize) + w.sizeOf p + w.heap.freeRight (p - metaSize) < mmapSize

instance (w : World) (p : Nat) : Decidable (w.JoinFits p) := by
  unfold World.JoinFits; infer_instance

/-- No merge of this event makes a block of `MMAP_SIZE` bytes or more. -/
def MergeFits (v : Version) (os : Os) (w : World) : Event → Prop
  | .sfree p => p ≠ 0 → w.JoinFits p
  | .srealloc oldp size =>
      oldp ≠ 0 → v.round size ≠ 0 → v.round size ≤ maxRequest →
        if mmapSize ≤ v.round size then
          (mmap os w.heap.kernel (sizeT (v.round size + metaSize))).1 ≠ none → w.JoinFits oldp
        else w.sizeOf oldp < mmapSize →
          ReallocFits (w.heap.freeLeft (oldp - metaSize)) (w.sizeOf oldp)
            (w.heap.freeRight (oldp - metaSize)) (v.round size)
  | _ => True

instance (v : Version) (os : Os) (w : World) : (e : Event) → Decidable (MergeFits v os w e)
  | .smalloc _ => .isTrue trivial
  | .scalloc _ _ => .isTrue trivial
  | .srealloc _ _ => by unfold MergeFits; infer_instance
  | .sfree _ => by unfold MergeFits; infer_instance
  | .write _ _ _ => .isTrue trivial

/-- `srealloc` does not shrink a mapped block below `MMAP_SIZE` by 176 bytes
or more, which would split it. -/
def NoMappedSplit (v : Version) (w : World) : Event → Prop
  | .srealloc oldp size =>
      oldp ≠ 0 → mmapSize ≤ w.sizeOf oldp → v.round size ≠ 0 → v.round size < mmapSize →
        w.sizeOf oldp < v.round size + (128 + metaSize)
  | _ => True

instance (v : Version) (w : World) : (e : Event) → Decidable (NoMappedSplit v w e)
  | .smalloc _ => .isTrue trivial
  | .scalloc _ _ => .isTrue trivial
  | .srealloc _ _ => by unfold NoMappedSplit; infer_instance
  | .sfree _ => .isTrue trivial
  | .write _ _ _ => .isTrue trivial

/-- `srealloc` does not take branch `d`. -/
def NoBranchD (v : Version) (w : World) : Event → Prop
  | .srealloc oldp size =>
      oldp ≠ 0 → v.round size ≠ 0 → v.round size < mmapSize → w.sizeOf oldp < mmapSize →
        ¬BranchD (w.heap.freeLeft (oldp - metaSize)) (w.sizeOf oldp)
          (w.heap.freeRight (oldp - metaSize)) (v.round size)
  | _ => True

instance (v : Version) (w : World) : (e : Event) → Decidable (NoBranchD v w e)
  | .smalloc _ => .isTrue trivial
  | .scalloc _ _ => .isTrue trivial
  | .srealloc _ _ => by unfold NoBranchD; infer_instance
  | .sfree _ => .isTrue trivial
  | .write _ _ _ => .isTrue trivial

/-- `srealloc` does not split, in branch `a` or `b`, right before a free block. -/
def SplitClear (v : Version) (w : World) : Event → Prop
  | .srealloc oldp size =>
      oldp ≠ 0 → v.round size ≠ 0 → 0 < w.heap.freeRight (oldp - metaSize) →
        (v.round size ≤ w.sizeOf oldp → w.sizeOf oldp < v.round size + (128 + metaSize)) ∧
        (w.sizeOf oldp < v.round size →
          v.round size ≤ w.heap.freeLeft (oldp - metaSize) + w.sizeOf oldp →
          w.heap.freeLeft (oldp - metaSize) + w.sizeOf oldp < v.round size + (128 + metaSize))
  | _ => True

instance (v : Version) (w : World) : (e : Event) → Decidable (SplitClear v w e)
  | .smalloc _ => .isTrue trivial
  | .scalloc _ _ => .isTrue trivial
  | .srealloc _ _ => by unfold SplitClear; infer_instance
  | .sfree _ => .isTrue trivial
  | .write _ _ _ => .isTrue trivial

/-! ## The invariant -/

/-- The payloads in use. -/
def usedPayloads (B : List Block) : Set Nat := { p | ∃ b ∈ B, b.free = false ∧ b.payload = p }

/-- The payloads of the mappings. -/
def mapPayloads (maps : List (Nat × Nat)) : Set Nat := { p | ∃ r ∈ maps, r.1 + metaSize = p }

structure Inv (os : Os) (w : World) (B : List Block) : Prop where
  rep : Rep os w.heap B
  mapped : Mapped os w.heap
  live : ∀ p, p ∈ w.live ↔ p ∈ usedPayloads B ∨ p ∈ mapPayloads w.heap.kernel.maps
  nodup : w.live.Nodup
  count : w.heap.kernel.sbrkFailures = 0 →
    w.heap.numOfMetadatas = B.length + w.heap.kernel.maps.length ∧
      w.heap.kernel.brk = os.brk0 + totalBytes B

theorem Inv.init (os : Os) (mem : Mem) : Inv os (.init os mem) [] where
  rep := by
    refine ⟨⟨le_rfl, os.brk0_le, rfl, rfl, trivial, by simp, by simp⟩, by simp, ?_⟩
    intro i
    refine ⟨[], rfl, trivial, .nil, .nil, fun a => ?_⟩
    simp [freeHeads_nil]
  mapped := ⟨by simp [World.init, Kernel.init], .nil, by simp [World.init, Kernel.init],
    by simp [World.init, Kernel.init], rfl, rfl, by simp [World.init, Kernel.init]⟩
  live := fun p => by simp [World.init, Kernel.init, usedPayloads, mapPayloads]
  nodup := .nil
  count := fun _ => ⟨rfl, rfl⟩

end OsAllHw.Malloc
