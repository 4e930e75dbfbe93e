import OsAllHw.Malloc2.Calls

/-!
# Requests that `malloc_2.cpp` refuses

On any heap whatsoever. A request is refused for its size or by `sbrk`,
which a new block calls twice: for the header, and for the payload when the
header is already made and counted. `Path` lists the ways through `smalloc`;
a `NULL` changes the statistics on one of them, `HalfDone`.
-/

namespace OsAllHw.Malloc2

open Lib
open OsAllHw.Malloc (Os Kernel Granted sbrk sbrk_cases sizeT toIntptr)

/-- A call that asks for memory. -/
inductive Request where
  | smalloc (size : Nat)
  | scalloc (num size : Nat)
  | srealloc (oldp size : Nat)

def serve (os : Os) (s : Heap) : Request → Except Fault (Nat × Heap)
  | .smalloc size => smalloc os s size
  | .scalloc num size => scalloc os s num size
  | .srealloc oldp size => srealloc os s oldp size

/-- The size with which the request reaches `smalloc`, if it does. -/
def Request.asks (s : Heap) : Request → Option Nat
  | .smalloc size => some size
  | .scalloc num size => some (sizeT (num * size))
  | .srealloc oldp size =>
      if size = 0 ∨ maxRequest < size then none
      else if oldp ≠ 0 ∧ size ≤ s.get .size (oldp - metaSize) then none
      else some size

/-- A request for `r` bytes gets a header from `sbrk` and then no payload. (An
old break of 0 reads as `NULL`, and no header is made.) -/
structure Strands (os : Os) (s : Heap) (r : Nat) : Prop where
  inRange : ¬(r = 0 ∨ maxRequest < r)
  noFit : findFit s r walkFuel s.freeList = .ok 0
  brk : s.kernel.brk ≠ 0
  header : Granted os s.kernel metaSize
  noPayload : ¬Granted os (s.kernel.moved metaSize) r

/-- A request for `r` bytes is refused. -/
def Refuses (os : Os) (s : Heap) (r : Nat) : Prop :=
  (r = 0 ∨ maxRequest < r) ∨ findFit s r walkFuel s.freeList = .ok 0 ∧
    (¬Granted os s.kernel metaSize ∨ ¬Granted os (s.kernel.moved metaSize) r)

/-- The request is one of those. -/
def HalfDone (os : Os) (s : Heap) (q : Request) : Prop := ∃ r, q.asks s = some r ∧ Strands os s r

/-! ## The ways through `smalloc` -/

/-- Every result of `smalloc`, with what the heap was like before. -/
inductive Path (os : Os) (s : Heap) (r : Nat) : Nat × Heap → Prop where
  | range (h : r = 0 ∨ maxRequest < r) : Path os s r (0, s)
  | noHeader (k : Kernel) (hr : ¬(r = 0 ∨ maxRequest < r))
      (hfit : findFit s r walkFuel s.freeList = .ok 0)
      (h : s.kernel.brk = 0 ∨ ¬Granted os s.kernel metaSize) :
      Path os s r (0, { s with kernel := k })
  | noPayload (s' : Heap) (h : Strands os s r)
      (hnum : s'.numOfMetadatas = sizeT (s.numOfMetadatas + 1)) : Path os s r (0, s')
  | fresh (s' : Heap) (hfit : findFit s r walkFuel s.freeList = .ok 0)
      (hr : ¬(r = 0 ∨ maxRequest < r)) (h : Granted os s.kernel metaSize)
      (h' : Granted os (s.kernel.moved metaSize) r) :
      Path os s r (s.kernel.brk + metaSize, s')
  | found (a : Nat) (s' : Heap) (hr : ¬(r = 0 ∨ maxRequest < r)) (ha : a ≠ 0)
      (hfit : findFit s r walkFuel s.freeList = .ok a) : Path os s r (a + metaSize, s')

section Paths

variable {os : Os} {s s' : Heap} {k : Kernel} {q : Request} {x : Nat × Heap} {r p : Nat}

theorem findFit_null : findFit s r walkFuel 0 = .ok 0 := by
  unfold walkFuel
  rfl

/-- The header of a new block. -/
theorem createMetadataSbrk_path (os : Os) (s : Heap) (r : Nat) :
    (∃ k, createMetadataSbrk os s r = (0, { s with kernel := k }) ∧
      (s.kernel.brk = 0 ∨ ¬Granted os s.kernel metaSize)) ∨
    ∃ s', createMetadataSbrk os s r = (s.kernel.brk, s') ∧ s.kernel.brk ≠ 0 ∧
      Granted os s.kernel metaSize ∧ s'.kernel = s.kernel.moved metaSize ∧
      s'.numOfMetadatas = sizeT (s.numOfMetadatas + 1) := by
  have hrange : ¬(metaSize = 0 ∨ maxRequest < metaSize) := by decide
  rw [createMetadataSbrk, smallocNaive, if_neg hrange]
  rcases sbrk_cases os s.kernel (n := metaSize) (by decide) with hsb | ⟨-, hsb⟩
  · refine .inl ⟨s.kernel.refused, ?_, .inr fun hg => hg (by rw [hsb])⟩
    rw [hsb]
    rfl
  · rw [hsb]
    by_cases hb : s.kernel.brk = 0
    · exact .inl ⟨_, if_pos hb, .inl hb⟩
    · refine .inr ⟨_, if_neg hb, hb, ?_, rfl, rfl⟩
      rw [Granted, hsb]
      exact Option.some_ne_none _

/-- **`smalloc`** takes one of the paths. -/
theorem smalloc_path (h : smalloc os s r = .ok x) : Path os s r x := by
  rw [smalloc] at h
  have hmr : maxRequest = 100000000 := rfl
  by_cases hr : r = 0 ∨ maxRequest < r
  · rw [if_pos hr] at h
    exact Except.ok.inj h ▸ .range hr
  rw [if_neg hr] at h
  obtain ⟨a, hfit, h⟩ := bind_eq_ok.mp h
  by_cases ha : listIsEmpty s = true ∨ a = 0
  · -- no block on the list is large enough
    have hno : findFit s r walkFuel s.freeList = .ok 0 := by
      rcases ha with hempty | rfl
      · rw [beq_iff_eq.mp hempty, findFit_null]
      · exact hfit
    rw [if_pos ha] at h
    rcases createMetadataSbrk_path os s r with ⟨k, hmk, hgrant⟩ | ⟨t, hmk, hb, hgrant, hk, hnum⟩
    · rw [hmk] at h
      exact Except.ok.inj h ▸ .noHeader k hr hno hgrant
    · rw [hmk] at h
      simp only [if_neg hb, hk] at h
      rcases sbrk_cases os (s.kernel.moved metaSize) (n := r) (by omega) with hsb | ⟨-, hsb⟩
      · rw [hsb] at h
        exact Except.ok.inj h ▸ .noPayload _ ⟨hr, hno, hb, hgrant, fun hg => hg (by rw [hsb])⟩ hnum
      · rw [hsb] at h
        refine Except.ok.inj h ▸ .fresh _ hno hr hgrant ?_
        rw [Granted, hsb]
        exact Option.some_ne_none _
  · rw [if_neg ha] at h
    rw [not_or] at ha
    exact Except.ok.inj h ▸ .found a _ hr ha.2 hfit

/-- **When `smalloc` returns `NULL`.** -/
theorem smalloc_eq_null_iff (hrun : smalloc os s r = .ok x) (hbrk : s.kernel.brk ≠ 0) :
    x.1 = 0 ↔ Refuses os s r := by
  have hrefuses : ∀ {a}, ¬(r = 0 ∨ maxRequest < r) → findFit s r walkFuel s.freeList = .ok a →
      a ≠ 0 → ¬Refuses os s r := by
    rintro a hr hfit ha (hrange | ⟨hno, -⟩)
    · exact hr hrange
    · exact ha (Except.ok.inj (hfit.symm.trans hno))
  cases smalloc_path hrun with
  | range h => exact iff_of_true rfl (.inl h)
  | noHeader k hr hfit h => exact iff_of_true rfl (.inr ⟨hfit, .inl (h.resolve_left hbrk)⟩)
  | noPayload s' h hnum => exact iff_of_true rfl (.inr ⟨h.noFit, .inr h.noPayload⟩)
  | fresh s' hfit hr h h' =>
      refine iff_of_false (Nat.succ_ne_zero _) ?_
      rintro (hrange | ⟨-, hno | hno⟩)
      · exact hr hrange
      · exact hno h
      · exact hno h'
  | found a s' hr ha hfit => exact iff_of_false (Nat.succ_ne_zero _) (hrefuses hr hfit ha)

end Paths

/-! ## What a refusal changes -/

/-- The nodes of a chain, with their sizes. -/
def chain (s : Heap) : Nat → Nat → Except Fault (List (Nat × Nat))
  | 0, _ => .error .diverges
  | fuel + 1, ptr =>
      if ptr = 0 then .ok []
      else do
        let rest ← chain s fuel (s.get .next ptr)
        return (ptr, s.get .size ptr) :: rest

/-- `free_list`. -/
def freeNodes (s : Heap) : Except Fault (List (Nat × Nat)) := chain s walkFuel s.freeList

/-- The five statistics and the list are the same. -/
structure Unchanged (s s' : Heap) : Prop where
  numFreeBlocks : numFreeBlocks s' = numFreeBlocks s
  numFreeBytes : numFreeBytes s' = numFreeBytes s
  numAllocatedBlocks : numAllocatedBlocks s' = numAllocatedBlocks s
  numAllocatedBytes : numAllocatedBytes s' = numAllocatedBytes s
  numMetaDataBytes : numMetaDataBytes s' = numMetaDataBytes s
  freeNodes : freeNodes s' = freeNodes s

section Refusals

variable {os : Os} {s s' : Heap} {k : Kernel} {q : Request} {r : Nat}

theorem chain_setKernel (fuel ptr : Nat) :
    chain { s with kernel := k } fuel ptr = chain s fuel ptr := by
  induction fuel generalizing ptr with
  | zero => rfl
  | succ fuel ih =>
      simp only [chain]
      rw [ih]
      rfl

theorem Unchanged.setKernel (s : Heap) (k : Kernel) : Unchanged s { s with kernel := k } :=
  ⟨rfl, rfl, rfl, rfl, rfl, chain_setKernel _ _⟩

/-- One more header is always seen. -/
theorem numMetaDataBytes_succ (h : s'.numOfMetadatas = sizeT (s.numOfMetadatas + 1)) :
    numMetaDataBytes s' ≠ numMetaDataBytes s := by
  rw [numMetaDataBytes, numMetaDataBytes, h]
  change sizeT (sizeT (s.numOfMetadatas + 1) * 32) ≠ sizeT (s.numOfMetadatas * 32)
  unfold sizeT
  omega

theorem smalloc_null (hrun : smalloc os s r = .ok (0, s')) :
    Unchanged s s' ↔ ¬Strands os s r := by
  generalize hx : (0, s') = x at hrun
  cases smalloc_path hrun with
  | range h =>
      cases hx
      exact iff_of_true (.setKernel s s.kernel) fun hs => hs.inRange h
  | noHeader k hr hfit h =>
      cases hx
      exact iff_of_true (.setKernel s k) fun hs => h.elim hs.brk fun hg => hg hs.header
  | noPayload s' h hnum =>
      cases hx
      exact iff_of_false (fun hu => numMetaDataBytes_succ hnum hu.numMetaDataBytes)
        (not_not_intro h)
  | fresh s' hfit hr h h' => cases hx
  | found a s' hr ha hfit => cases hx

/-- A `NULL` from any request is one from `smalloc`, or nothing was done. -/
theorem serve_null (h : serve os s q = .ok (0, s')) :
    (q.asks s = none ∧ s' = s) ∨ ∃ r, q.asks s = some r ∧ smalloc os s r = .ok (0, s') := by
  cases q with
  | smalloc size => exact .inr ⟨size, rfl, h⟩
  | scalloc num size =>
      obtain ⟨⟨p, t⟩, hrun, h⟩ := bind_eq_ok.mp h
      by_cases hp : p = 0
      · simp only [hp, if_true] at h
        obtain rfl : t = s' := congrArg Prod.snd (Except.ok.inj h)
        exact .inr ⟨_, rfl, hp ▸ hrun⟩
      · simp only [hp, if_false] at h
        exact absurd (congrArg Prod.fst (Except.ok.inj h)) hp
  | srealloc oldp size =>
      rw [serve, srealloc] at h
      rw [Request.asks]
      by_cases hr : size = 0 ∨ maxRequest < size
      · rw [if_pos hr] at h ⊢
        exact .inl ⟨rfl, (congrArg Prod.snd (Except.ok.inj h)).symm⟩
      rw [if_neg hr] at h ⊢
      by_cases hp : oldp = 0
      · rw [if_pos hp] at h
        rw [if_neg fun hk => hk.1 hp]
        exact .inr ⟨size, rfl, h⟩
      rw [if_neg hp] at h
      by_cases hkeep : size ≤ s.get .size (oldp - metaSize)
      · -- the block itself
        rw [if_pos hkeep] at h
        exact absurd (congrArg Prod.fst (Except.ok.inj h)) hp
      rw [if_neg hkeep] at h
      rw [if_neg fun hk => hkeep hk.2]
      obtain ⟨⟨p, t⟩, hrun, h⟩ := bind_eq_ok.mp h
      by_cases hp0 : p = 0
      · simp only [hp0, if_true] at h
        obtain rfl : t = s' := congrArg Prod.snd (Except.ok.inj h)
        exact .inr ⟨size, rfl, hp0 ▸ hrun⟩
      · simp only [hp0, if_false] at h
        obtain ⟨t', -, h⟩ := bind_eq_ok.mp h
        exact absurd (congrArg Prod.fst (Except.ok.inj h)) hp0

/-- **What a `NULL` changes**, on any heap. -/
theorem null_unchanged_iff (h : serve os s q = .ok (0, s')) :
    Unchanged s s' ↔ ¬HalfDone os s q := by
  rcases serve_null h with ⟨hasks, rfl⟩ | ⟨r, hasks, hrun⟩
  · refine iff_of_true (.setKernel s' s'.kernel) ?_
    rintro ⟨r, hr, -⟩
    rw [hasks] at hr
    cases hr
  · rw [smalloc_null hrun, HalfDone]
    refine not_congr ⟨fun hs => ⟨r, hasks, hs⟩, ?_⟩
    rintro ⟨r', hr', hs⟩
    rw [hasks] at hr'
    exact Option.some.inj hr' ▸ hs

end Refusals

end OsAllHw.Malloc2
