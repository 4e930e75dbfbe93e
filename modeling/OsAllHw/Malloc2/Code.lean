import OsAllHw.Lib.Record
import OsAllHw.Lib.Run
import OsAllHw.Malloc.Kernel

/-!
# `malloc_2.cpp`

The first-fit allocator, statement by statement. A header has four fields
and stands in front of its payload; only released blocks are on a list, the
doubly linked `free_list`, which `sfree` keeps in address order. Three
counters follow the header creations and two the list. (`print_free_list`
writes to `std::cout` only and is left out.)
-/

namespace OsAllHw.Malloc2

open Lib
open OsAllHw.Malloc (Os Kernel sbrk sizeT subT toIntptr)

/-- How a call can fail to return. -/
inductive Fault where
  /-- A `while` loop over a cyclic chain. -/
  | diverges
  deriving DecidableEq

/-- The fields of `struct MallocMetadata`. -/
inductive Field where
  | size
  | isFree
  | next
  | prev
  deriving DecidableEq

/-- `sizeof(MallocMetadata)`. -/
abbrev metaSize : Nat := 32

/-- The layout of `struct MallocMetadata` (`bool is_free` is padded to eight bytes). -/
def mallocMetadata : Fields Field where
  off
    | .size => 0
    | .isFree => 8
    | .next => 16
    | .prev => 24
  width
    | .isFree => 1
    | _ => 8
  size := metaSize
  disjoint f g h := by cases f <;> cases g <;> simp at h ⊢
  end_le f := by cases f <;> decide

/-- The largest request the allocator accepts. -/
abbrev maxRequest : Nat := 100000000

/-- Memory, the file's static variables and the kernel's side. -/
structure Heap where
  mem : Mem
  freeList : Nat
  freeBlocksNum : Nat
  freeBytesNum : Nat
  numOfMetadatas : Nat
  numAllocatedBlocks : Nat
  numAllocatedBytes : Nat
  kernel : Kernel

/-- `ptr->field`. -/
def Heap.get (s : Heap) (f : Field) (ptr : Nat) : Nat := mallocMetadata.load s.mem f ptr

/-- `ptr->field = v`. -/
def Heap.put (s : Heap) (f : Field) (ptr v : Nat) : Heap :=
  { s with mem := mallocMetadata.store s.mem f ptr v }

/-- `ptr->is_free`. -/
def Heap.isFree (s : Heap) (ptr : Nat) : Bool := s.get .isFree ptr != 0

/-- No chain of distinct 64-bit addresses is longer, so a walk that takes
more steps goes round a cycle for ever. -/
@[irreducible] def walkFuel : Nat := 2 ^ 64

def smallocNaive (os : Os) (s : Heap) (size : Nat) : Nat × Heap :=
  if size = 0 ∨ maxRequest < size then (0, s)
  else match sbrk os s.kernel (toIntptr size) with
    | (none, k) => (0, { s with kernel := k })
    | (some old, k) => (old, { s with kernel := k })

def listIsEmpty (s : Heap) : Bool := s.freeList == 0

def createMetadataSbrk (os : Os) (s : Heap) (sizeIn : Nat) : Nat × Heap :=
  let (ptr, s) := smallocNaive os s metaSize
  if ptr = 0 then (0, s)
  else
    let s := s.put .size ptr sizeIn
    let s := s.put .isFree ptr 0
    let s := s.put .next ptr 0
    let s := s.put .prev ptr 0
    (ptr,
      { s with
        numOfMetadatas := sizeT (s.numOfMetadatas + 1)
        numAllocatedBlocks := sizeT (s.numAllocatedBlocks + 1)
        numAllocatedBytes := sizeT (s.numAllocatedBytes + sizeIn) })

def removeNode (s : Heap) (ptr : Nat) : Heap :=
  if listIsEmpty s ∨ ptr = 0 then s
  else
    let prevPtr := s.get .prev ptr
    let nextPtr := s.get .next ptr
    -- first node
    if prevPtr = 0 then
      let s := { s with freeList := nextPtr }
      let s := if nextPtr = 0 then s else s.put .prev s.freeList 0
      (s.put .prev ptr 0).put .next ptr 0
    else
      let s := s.put .next prevPtr nextPtr
      let s := if nextPtr = 0 then s else s.put .prev nextPtr prevPtr
      (s.put .prev ptr 0).put .next ptr 0

def addNode (s : Heap) (nodeToAdd ptrPrev : Nat) : Heap :=
  -- add to free_list head
  if ptrPrev = 0 then
    let s := s.put .next nodeToAdd s.freeList
    let s := if s.freeList = 0 then s else s.put .prev s.freeList nodeToAdd
    let s := s.put .prev nodeToAdd 0
    { s with freeList := nodeToAdd }
  else
    let ptrNext := s.get .next ptrPrev
    let s := s.put .prev nodeToAdd ptrPrev
    let s := s.put .next ptrPrev nodeToAdd
    let s := s.put .next nodeToAdd ptrNext
    if ptrNext = 0 then s else s.put .prev ptrNext nodeToAdd

/-- The `while (current)` loop of `smalloc`: the first block that is large
enough, or 0. -/
def findFit (s : Heap) (size : Nat) : Nat → Nat → Except Fault Nat
  | 0, _ => .error .diverges
  | fuel + 1, current =>
      if current = 0 then .ok 0
      else if s.get .size current ≥ size then .ok current
      else findFit s size fuel (s.get .next current)

/-- The `while (populate)` loop of `sfree`: the last block below
`pMetadata`, or the `populatePrev` it was entered with. -/
def findPlace (s : Heap) (pMetadata : Nat) : Nat → Nat → Nat → Except Fault Nat
  | 0, _, _ => .error .diverges
  | fuel + 1, populate, populatePrev =>
      if populate = 0 then .ok populatePrev
      else if populate > pMetadata then .ok populatePrev
      else findPlace s pMetadata fuel (s.get .next populate) populate

def smalloc (os : Os) (s : Heap) (size : Nat) : Except Fault (Nat × Heap) := do
  if size = 0 ∨ maxRequest < size then return (0, s)
  let current ← findFit s size walkFuel s.freeList
  if listIsEmpty s ∨ current = 0 then
    -- no space found in list
    let (newMetadata, s) := createMetadataSbrk os s size
    if newMetadata = 0 then return (0, s)
    match sbrk os s.kernel (toIntptr size) with
    | (none, k) => return (0, { s with kernel := k })
    | (some oldProgBrk, k) => return (oldProgBrk, { s with kernel := k })
  let s := s.put .isFree current 0
  let s := removeNode s current
  return (current + metaSize,
    { s with
      freeBytesNum := subT s.freeBytesNum (s.get .size current)
      freeBlocksNum := subT s.freeBlocksNum 1 })

def sfree (s : Heap) (p : Nat) : Except Fault Heap := do
  if p = 0 then return s
  let pMetadata := p - metaSize
  if s.isFree pMetadata then return s
  let populatePrev ← findPlace s pMetadata walkFuel s.freeList 0
  let s :=
    { s with
      freeBlocksNum := sizeT (s.freeBlocksNum + 1)
      freeBytesNum := sizeT (s.freeBytesNum + s.get .size pMetadata) }
  let s := s.put .isFree pMetadata 1
  return addNode s pMetadata populatePrev

def scalloc (os : Os) (s : Heap) (num size : Nat) : Except Fault (Nat × Heap) := do
  let (p, s) ← smalloc os s (sizeT (num * size))
  if p = 0 then return (0, s)
  return (p, { s with mem := s.mem.fillBytes p (sizeT (num * size)) 0 })

def srealloc (os : Os) (s : Heap) (oldp size : Nat) : Except Fault (Nat × Heap) := do
  if size = 0 ∨ maxRequest < size then return (0, s)
  if oldp = 0 then return ← smalloc os s size
  let oldpMetadata := oldp - metaSize
  if s.get .size oldpMetadata ≥ size then return (oldp, s)
  let (newp, s) ← smalloc os s size
  if newp = 0 then return (0, s)
  let sizeToMove := min size (s.get .size oldpMetadata)
  let s := { s with mem := s.mem.copyBytes newp oldp sizeToMove }
  let s ← sfree s oldp
  return (newp, s)

/-! ## Statistics -/

def numFreeBlocks (s : Heap) : Nat := s.freeBlocksNum

def numFreeBytes (s : Heap) : Nat := s.freeBytesNum

def numAllocatedBlocks (s : Heap) : Nat := s.numAllocatedBlocks

def numAllocatedBytes (s : Heap) : Nat := s.numAllocatedBytes

def numMetaDataBytes (s : Heap) : Nat := sizeT (s.numOfMetadatas * metaSize)

def sizeMetaData : Nat := metaSize

end OsAllHw.Malloc2
