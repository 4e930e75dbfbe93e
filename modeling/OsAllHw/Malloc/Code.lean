import OsAllHw.Malloc.Kernel

/-!
# `malloc_3.cpp` and `malloc_4.cpp`

The two best-fit allocators, statement by statement. They share every
function but two: `malloc_4.cpp` rounds each request up to a multiple of
eight, and its `srealloc` takes the block it merged in branch `d` out of
the histogram, which `malloc_3.cpp` does not.

A `MallocMetadata*` is the address of its first byte; the six fields lie
in memory at their C offsets, in front of the payload. Two things end a
run abnormally: an index outside `free_histogram`, and a loop over a
cyclic chain.
-/

namespace OsAllHw.Malloc

open Lib

/-- Which source file. -/
inductive Version where
  | malloc3
  | malloc4
  deriving DecidableEq

/-- How a call can fail to return. -/
inductive Fault where
  /-- `add_node_histo` uses `free_histogram[i]` with `i` not below 128. -/
  | addIndex
  /-- `remove_node_histo` does. -/
  | removeIndex
  /-- A `while` loop over a cyclic chain. -/
  | diverges
  deriving DecidableEq

/-- The fields of `struct MallocMetadata`. -/
inductive Field where
  | size
  | isFree
  | listNext
  | listPrev
  | histoNext
  | histoPrev
  deriving DecidableEq

/-- `sizeof(MallocMetadata)`. -/
abbrev metaSize : Nat := 48

/-- Byte offset of a field (`bool is_free` is padded to eight bytes). -/
def Field.off : Field → Nat
  | .size => 0
  | .isFree => 8
  | .listNext => 16
  | .listPrev => 24
  | .histoNext => 32
  | .histoPrev => 40

def Field.width : Field → Nat
  | .isFree => 1
  | _ => 8

/-- `#define MMAP_SIZE 131072`. -/
abbrev mmapSize : Nat := 131072

/-- The largest request any of the allocators accepts. -/
abbrev maxRequest : Nat := 100000000

/-- Memory, the file's static variables and the kernel's side. -/
structure Heap where
  mem : Mem
  allListHead : Nat
  allListEnd : Nat
  freeHistogram : Fin 128 → Nat
  numOfMetadatas : Nat
  mmapedBlocksNum : Nat
  mmapedBytesNum : Nat
  kernel : Kernel

/-- `ptr->field`. -/
def Heap.get (s : Heap) (f : Field) (ptr : Nat) : Nat :=
  s.mem.loadLE (ptr + f.off) f.width

/-- `ptr->field = v`. -/
def Heap.put (s : Heap) (f : Field) (ptr v : Nat) : Heap :=
  { s with mem := s.mem.storeLE (ptr + f.off) f.width v }

/-- `ptr->is_free`. -/
def Heap.isFree (s : Heap) (ptr : Nat) : Bool := s.get .isFree ptr != 0

/-- `free_histogram[i] = v`. -/
def Heap.setHisto (s : Heap) (i : Fin 128) (v : Nat) : Heap :=
  { s with freeHistogram := Function.update s.freeHistogram i v }

/-- `int i = size / 1024`, used as an index of `free_histogram`; out of
bounds it is undefined behaviour, recorded as `fault`. -/
def histoIndex (fault : Fault) (size : Nat) : Except Fault (Fin 128) :=
  if h : size / 1024 < 128 then .ok ⟨size / 1024, h⟩ else .error fault

/-- No chain of distinct 64-bit addresses is longer, so a walk that takes
more steps goes round a cycle for ever. -/
@[irreducible] def walkFuel : Nat := 2 ^ 64

def roundUp (size : Nat) : Nat :=
  if size = 0 then 0
  else if size % 8 ≠ 0 then sizeT (size + (8 - size % 8))
  else size

/-- Only `malloc_4.cpp` rounds its requests. -/
def Version.round (v : Version) (size : Nat) : Nat :=
  match v with
  | .malloc3 => size
  | .malloc4 => roundUp size

def smallocNaive (os : Os) (s : Heap) (size : Nat) : Nat × Heap :=
  if size = 0 ∨ maxRequest < size then (0, s)
  else match sbrk os s.kernel (toIntptr size) with
    | (none, k) => (0, { s with kernel := k })
    | (some old, k) => (old, { s with kernel := k })

def createMetadataSbrk (os : Os) (s : Heap) (sizeIn : Nat) (isFree : Bool) : Nat × Heap :=
  let (ptr, s) := smallocNaive os s metaSize
  if ptr = 0 then (0, s)
  else
    let s := s.put .size ptr sizeIn
    let s := s.put .isFree ptr isFree.toNat
    let s := s.put .histoNext ptr 0
    let s := s.put .histoPrev ptr 0
    let s := s.put .listNext ptr 0
    let s := s.put .listPrev ptr 0
    (ptr, { s with numOfMetadatas := s.numOfMetadatas + 1 })

/-- The part of `remove_node_histo` that takes `ptr` out of bucket `i`. -/
def unlinkHisto (s : Heap) (i : Fin 128) (ptr : Nat) : Heap :=
  let prevPtr := s.get .histoPrev ptr
  let nextPtr := s.get .histoNext ptr
  -- first node in list
  if prevPtr = 0 then
    let s := s.setHisto i nextPtr
    let s := if nextPtr = 0 then s else s.put .histoPrev (s.freeHistogram i) 0
    (s.put .histoPrev ptr 0).put .histoNext ptr 0
  else
    let s := s.put .histoNext prevPtr nextPtr
    let s := if nextPtr = 0 then s else s.put .histoPrev nextPtr prevPtr
    (s.put .histoPrev ptr 0).put .histoNext ptr 0

def removeNodeHisto (s : Heap) (ptr : Nat) : Except Fault Heap :=
  if ptr = 0 then .ok s
  else if !s.isFree ptr then .ok s
  else do
    let i ← histoIndex .removeIndex (s.get .size ptr)
    return if s.freeHistogram i = 0 then s else unlinkHisto s i ptr

def addNodeList (s : Heap) (nodeToAdd ptrPrev : Nat) : Heap :=
  -- add to start of list
  if ptrPrev = 0 then
    let s := s.put .listNext nodeToAdd s.allListHead
    let s := s.put .listPrev nodeToAdd 0
    let s := { s with allListHead := nodeToAdd }
    let s := s.put .listPrev s.allListHead 0
    if s.get .listNext nodeToAdd = 0 then { s with allListEnd := nodeToAdd } else s
  else
    let ptrNext := s.get .listNext ptrPrev
    let s := s.put .listPrev nodeToAdd ptrPrev
    let s := s.put .listNext ptrPrev nodeToAdd
    let s := s.put .listNext nodeToAdd ptrNext
    let s := if ptrNext = 0 then s else s.put .listPrev ptrNext nodeToAdd
    if s.get .listNext nodeToAdd = 0 then { s with allListEnd := nodeToAdd } else s

/-- The `while(ptr)` loop of `add_node_histo`: the last node of the chain
that is no larger than `size`, or the `ptrPrev` it was entered with. -/
def findSlot (s : Heap) (size : Nat) : Nat → Nat → Nat → Except Fault Nat
  | 0, _, _ => .error .diverges
  | fuel + 1, ptr, ptrPrev =>
      if ptr = 0 then .ok ptrPrev
      else if s.get .size ptr > size then .ok ptrPrev
      else findSlot s size fuel (s.get .histoNext ptr) ptr

/-- The part of `add_node_histo` that links the node in after `ptrPrev`
(at the head of bucket `i` if there is none). -/
def linkHisto (s : Heap) (i : Fin 128) (nodeToAdd ptrPrev : Nat) : Heap :=
  -- add to list head
  if ptrPrev = 0 then
    let s := s.put .histoNext nodeToAdd (s.freeHistogram i)
    let s := s.put .histoPrev nodeToAdd 0
    let s := if s.freeHistogram i = 0 then s
      else s.put .histoPrev (s.freeHistogram i) nodeToAdd
    s.setHisto i nodeToAdd
  else
    let ptrNext := s.get .histoNext ptrPrev
    let s := s.put .histoPrev nodeToAdd ptrPrev
    let s := s.put .histoNext ptrPrev nodeToAdd
    let s := s.put .histoNext nodeToAdd ptrNext
    if ptrNext = 0 then s else s.put .histoPrev ptrNext nodeToAdd

/-- `malloc_4.cpp` starts with a `NULL` check that no caller needs. -/
def addNodeHisto (s : Heap) (nodeToAdd : Nat) : Except Fault Heap :=
  if nodeToAdd = 0 then .ok s
  else do
    let i ← histoIndex .addIndex (s.get .size nodeToAdd)
    let ptrPrev ← findSlot s (s.get .size nodeToAdd) walkFuel (s.freeHistogram i) 0
    return linkHisto s i nodeToAdd ptrPrev

def placeMetadata (s : Heap) (ptr : Nat) (isFree : Bool) (size : Nat) : Heap :=
  (s.put .isFree ptr isFree.toNat).put .size ptr size

/-- `[metadata][........block........]` becomes
`[metadata][..block..][metadata][_______]`. -/
def splitBlock (s : Heap) (current size : Nat) : Except Fault Heap := do
  let remainingSize := subT (subT (s.get .size current) size) metaSize
  let newMetaFree := current + metaSize + size
  let s := placeMetadata s newMetaFree true remainingSize
  let s := { s with numOfMetadatas := s.numOfMetadatas + 1 }
  let s ← addNodeHisto s newMetaFree
  let s ← removeNodeHisto s current
  let s := placeMetadata s current false size
  return addNodeList s newMetaFree current

/-- The payload of a fresh block, or of the grown wilderness block;
0 is `NULL`. -/
def sbrkWrapper (os : Os) (s : Heap) (size : Nat) : Except Fault (Nat × Heap) := do
  if s.allListEnd ≠ 0 ∧ s.isFree s.allListEnd then
    match sbrk os s.kernel (toIntptr (subT size (s.get .size s.allListEnd))) with
    | (none, k) => return (0, { s with kernel := k })
    | (some _, k) =>
        let s ← removeNodeHisto { s with kernel := k } s.allListEnd
        let s := s.put .size s.allListEnd size
        let s := s.put .isFree s.allListEnd 0
        return (s.allListEnd + metaSize, s)
  let (newMetadata, s) := createMetadataSbrk os s size false
  if newMetadata = 0 then return (0, s)
  match sbrk os s.kernel (toIntptr size) with
  | (none, k) => return (0, { s with kernel := k })
  | (some newptr, k) => return (newptr, addNodeList { s with kernel := k } newMetadata s.allListEnd)

/-- An anonymous mapping is zero-filled; only two header fields are set. -/
def mmapWrapper (os : Os) (s : Heap) (size : Nat) : Nat × Heap :=
  match mmap os s.kernel (sizeT (size + metaSize)) with
  | (none, k) => (0, { s with kernel := k })
  | (some ptr, k) =>
      let s := { s with kernel := k, mem := s.mem.fillBytes ptr (sizeT (size + metaSize)) 0 }
      let s := s.put .isFree ptr 0
      let s := s.put .size ptr size
      (ptr + metaSize,
        { s with
          numOfMetadatas := s.numOfMetadatas + 1
          mmapedBlocksNum := s.mmapedBlocksNum + 1
          mmapedBytesNum := sizeT (s.mmapedBytesNum + size) })

def deallocateMmap (s : Heap) (ptr : Nat) : Heap :=
  { s with
    mmapedBlocksNum := subT s.mmapedBlocksNum 1
    mmapedBytesNum := subT s.mmapedBytesNum (s.get .size ptr)
    numOfMetadatas := subT s.numOfMetadatas 1
    kernel := munmap s.kernel ptr (sizeT (s.get .size ptr + metaSize)) }

/-- The `while(current)` loop of `smalloc` in one bucket: the first fitting
block, or 0. -/
def searchBucket (s : Heap) (size : Nat) : Nat → Nat → Except Fault Nat
  | 0, _ => .error .diverges
  | fuel + 1, current =>
      if current = 0 then .ok 0
      else if s.get .size current ≥ size ∧ s.isFree current then .ok current
      else searchBucket s size fuel (s.get .histoNext current)

/-- The `for` loop of `smalloc` over the last `n` buckets. -/
def searchHisto (s : Heap) (size : Nat) : (n : Nat) → n ≤ 128 → Except Fault Nat
  | 0, _ => .ok 0
  | n + 1, h => do
      let current ← searchBucket s size walkFuel (s.freeHistogram ⟨127 - n, by omega⟩)
      if current ≠ 0 then return current
      searchHisto s size n (by omega)

def smalloc (v : Version) (os : Os) (s : Heap) (size : Nat) : Except Fault (Nat × Heap) := do
  let size := v.round size
  if size = 0 ∨ maxRequest < size then return (0, s)
  if mmapSize ≤ size then return mmapWrapper os s size
  -- go through histo to find empty block
  let current ← searchHisto s size (128 - size / 1024) (by omega)
  if current = 0 then sbrkWrapper os s size
  else if subT (s.get .size current) size < 128 + metaSize then
    -- no need to split
    let s ← removeNodeHisto s current
    return (current + metaSize, s.put .isFree current 0)
  else
    let s ← splitBlock s current size
    return (current + metaSize, s)

/-- "A lazy way to implement remove_node_list", inside `unite_right`. -/
def removeNodeList (s : Heap) (nodeToRemove : Nat) : Heap :=
  let prevPtr := s.get .listPrev nodeToRemove
  let nextPtr := s.get .listNext nodeToRemove
  let s := s.put .listNext prevPtr nextPtr
  let s := if nextPtr = 0 then { s with allListEnd := prevPtr }
    else s.put .listPrev nextPtr prevPtr
  let s := s.put .listPrev nodeToRemove 0
  s.put .listNext nodeToRemove 0

/-- Merges a free block with its right neighbour if that is free too. -/
def uniteRight (s : Heap) (pMetadata : Nat) : Except Fault Heap :=
  if pMetadata = 0 ∨ !s.isFree pMetadata then .ok s
  else
    let nodeToRemove := s.get .listNext pMetadata
    -- no block to unite with :(
    if nodeToRemove = 0 ∨ !s.isFree nodeToRemove then .ok s
    else do
      let s ← removeNodeHisto s nodeToRemove
      let s ← removeNodeHisto s pMetadata
      let s := removeNodeList s nodeToRemove
      let s := s.put .size pMetadata
        (s.get .size pMetadata + (s.get .size nodeToRemove + metaSize))
      let s := s.put .isFree pMetadata 1
      let s ← addNodeHisto s pMetadata
      return { s with numOfMetadatas := subT s.numOfMetadatas 1 }

def sfree (s : Heap) (p : Nat) : Except Fault Heap := do
  if p = 0 then return s
  let pMetadata := p - metaSize
  if s.isFree pMetadata then return s
  if mmapSize ≤ s.get .size pMetadata then return deallocateMmap s pMetadata
  let s := s.put .isFree pMetadata 1
  let s ← addNodeHisto s pMetadata
  let s ← uniteRight s pMetadata
  uniteRight s (s.get .listPrev pMetadata)

def uniteSrealloc (s : Heap) (oldpMetadata uniteWith : Nat) (secondTime : Bool) :
    Except Fault Heap := do
  let s := s.put .isFree oldpMetadata 1
  let s ← if secondTime then pure s else addNodeHisto s oldpMetadata
  uniteRight s uniteWith

/-- `memmove(dst, src, n)`. -/
def Heap.memmove (s : Heap) (dst src n : Nat) : Heap :=
  { s with mem := s.mem.copyBytes dst src n }

/-- The end of branches `b`, `c` and `d`: split the block if enough of it
is left over. -/
def splitIfLarge (s : Heap) (block size : Nat) : Except Fault (Nat × Heap) := do
  if subT (s.get .size block) size ≥ 128 + metaSize then
    let s ← splitBlock s block size
    return (block + metaSize, s)
  return (block + metaSize, s)

def srealloc (v : Version) (os : Os) (s : Heap) (oldp size : Nat) :
    Except Fault (Nat × Heap) := do
  let size := v.round size
  if size = 0 ∨ maxRequest < size then return (0, s)
  if oldp = 0 then return ← smalloc v os s size
  let oldpMetadata := oldp - metaSize
  -- mmap treatment
  if mmapSize ≤ size then
    let (ptr, s) ← smalloc v os s size
    if ptr = 0 then return (0, s)
    let s := s.memmove ptr oldp (min (s.get .size oldpMetadata) size)
    let s ← sfree s oldp
    return (ptr, s)
  -- a. Try to reuse the current block without any merging.
  if s.get .size oldpMetadata ≥ size then
    if subT (s.get .size oldpMetadata) size ≥ 128 + metaSize then
      let s ← splitBlock s oldpMetadata size
      return (oldpMetadata + metaSize, s)
    return (oldp, s)
  -- b. Try to merge with the adjacent block with the lower address.
  let oldpPrev := s.get .listPrev oldpMetadata
  if oldpPrev ≠ 0 ∧
      sizeT (s.get .size oldpPrev + s.get .size oldpMetadata + metaSize) ≥ size ∧
      s.isFree oldpPrev then
    let s ← uniteSrealloc s oldpMetadata oldpPrev false
    let s := s.memmove (oldpPrev + metaSize) oldp
      (min (s.get .size oldpMetadata) (s.get .size oldpPrev))
    let s ← removeNodeHisto s oldpPrev
    let s := s.put .isFree oldpPrev 0
    return ← splitIfLarge s oldpPrev size
  -- c. Try to merge with the adjacent block with the higher address.
  let oldpNext := s.get .listNext oldpMetadata
  if oldpNext ≠ 0 ∧
      sizeT (s.get .size oldpNext + s.get .size oldpMetadata + metaSize) ≥ size ∧
      s.isFree oldpNext then
    let s ← uniteSrealloc s oldpMetadata oldpMetadata false
    let s ← removeNodeHisto s oldpMetadata
    let s := s.put .isFree oldpMetadata 0
    return ← splitIfLarge s oldpMetadata size
  -- d. Try to merge all those three adjacent blocks together.
  if oldpPrev ≠ 0 ∧ oldpNext ≠ 0 ∧
      sizeT (s.get .size oldpPrev + s.get .size oldpNext + s.get .size oldpMetadata +
        2 * metaSize) ≥ size ∧
      s.isFree oldpNext ∧ s.isFree oldpPrev then
    let s ← uniteSrealloc s oldpMetadata oldpMetadata false
    let s ← uniteSrealloc s oldpMetadata oldpPrev true
    -- `malloc_3.cpp` has no such call here
    let s ← match v with
      | .malloc3 => pure s
      | .malloc4 => removeNodeHisto s oldpPrev
    let s := s.put .isFree oldpPrev 0
    let s := s.memmove (oldpPrev + metaSize) oldp
      (min (s.get .size oldpMetadata) (s.get .size oldpPrev))
    return ← splitIfLarge s oldpPrev size
  -- wilderness case: if the wilderness is the block to realloc, use it!
  if s.get .listNext oldpMetadata = 0 ∧ s.allListEnd = oldpMetadata then
    match sbrk os s.kernel (toIntptr (subT size (s.get .size oldpMetadata))) with
    | (none, k) => return (0, { s with kernel := k })
    | (some _, k) =>
        let s := { s with kernel := k }
        return (oldpMetadata + metaSize, s.put .size s.allListEnd size)
  -- e., f. Find or allocate another block, copy and free the old one.
  let (newp, s) ← smalloc v os s size
  if newp = 0 then return (0, s)
  let s := s.memmove newp oldp (min (s.get .size oldpMetadata) size)
  let s ← sfree s oldp
  return (newp, s)

def scalloc (v : Version) (os : Os) (s : Heap) (num size : Nat) : Except Fault (Nat × Heap) := do
  let (p, s) ← smalloc v os s (sizeT (num * size))
  if p = 0 then return (0, s)
  return (p, { s with mem := s.mem.fillBytes p (sizeT (num * size)) 0 })

/-! ## Statistics -/

/-- The `while (current)` loop of the statistics functions: `add` is what
one node adds to the running total. -/
def walkAllList (s : Heap) (add : Nat → Nat) : Nat → Nat → Nat → Except Fault Nat
  | 0, _, _ => .error .diverges
  | fuel + 1, current, res =>
      if current = 0 then .ok res
      else walkAllList s add fuel (s.get .listNext current) (sizeT (res + add current))

def numMetaDataBytes (s : Heap) : Nat := sizeT (s.numOfMetadatas * metaSize)

def sizeMetaData : Nat := metaSize

def numFreeBlocks (s : Heap) : Except Fault Nat :=
  walkAllList s (fun current => (s.isFree current).toNat) walkFuel s.allListHead 0

def numAllocatedBlocks (s : Heap) : Except Fault Nat := do
  let count ← walkAllList s (fun _ => 1) walkFuel s.allListHead 0
  return sizeT (count + s.mmapedBlocksNum)

def numFreeBytes (s : Heap) : Except Fault Nat :=
  walkAllList s (fun current => if s.isFree current then s.get .size current else 0)
    walkFuel s.allListHead 0

def numAllocatedBytes (s : Heap) : Except Fault Nat := do
  let res ← walkAllList s (s.get .size) walkFuel s.allListHead 0
  return sizeT (res + s.mmapedBytesNum)

end OsAllHw.Malloc
