import OsAllHw.Malloc.Mapped

/-!
# Requests that `malloc_3.cpp` and `malloc_4.cpp` refuse

On any heap whatsoever. A request is refused for its size, by `mmap`, or by
`sbrk`: for the growth of a free wilderness, for the header of a new block,
or for its payload when the header is already made and counted. `Path` lists
the ways through `smalloc`; a `NULL` changes the statistics on one of them.
-/

namespace OsAllHw.Malloc

open Lib

/-- A call that asks for memory. -/
inductive Request where
  | smalloc (size : Nat)
  | scalloc (num size : Nat)
  | srealloc (oldp size : Nat)

def serve (v : Version) (os : Os) (s : Heap) : Request → Except Fault (Nat × Heap)
  | .smalloc size => smalloc v os s size
  | .scalloc num size => scalloc v os s num size
  | .srealloc oldp size => srealloc v os s oldp size

/-- `srealloc` deals with the block at `m` where it is: branches `a` to `d`
and the wilderness. -/
structure InPlace (s : Heap) (m size : Nat) : Prop where
  small : size < mmapSize
  guard : size ≤ s.get .size m ∨
    (s.get .listPrev m ≠ 0 ∧
      sizeT (s.get .size (s.get .listPrev m) + s.get .size m + metaSize) ≥ size ∧
      s.isFree (s.get .listPrev m) = true) ∨
    (s.get .listNext m ≠ 0 ∧
      sizeT (s.get .size (s.get .listNext m) + s.get .size m + metaSize) ≥ size ∧
      s.isFree (s.get .listNext m) = true) ∨
    (s.get .listPrev m ≠ 0 ∧ s.get .listNext m ≠ 0 ∧
      sizeT (s.get .size (s.get .listPrev m) + s.get .size (s.get .listNext m) +
        s.get .size m + 2 * metaSize) ≥ size ∧
      s.isFree (s.get .listNext m) = true ∧ s.isFree (s.get .listPrev m) = true) ∨
    (s.get .listNext m = 0 ∧ s.allListEnd = m)

/-- The request reaches `smalloc` and asks it for `r` bytes. -/
inductive Request.Asks (v : Version) (s : Heap) : Request → Nat → Prop where
  | smalloc (size : Nat) : Asks v s (.smalloc size) size
  | scalloc (num size : Nat) : Asks v s (.scalloc num size) (sizeT (num * size))
  | srealloc (oldp size : Nat) (hr : ¬(v.round size = 0 ∨ maxRequest < v.round size))
      (h : oldp = 0 ∨ ¬InPlace s (oldp - metaSize) (v.round size)) :
      Asks v s (.srealloc oldp size) (v.round size)

/-- The buckets `smalloc` searches for `r` bytes. -/
theorem Version.bucketsFrom_le (v : Version) (r : Nat) : 128 - v.round r / 1024 ≤ 128 :=
  Nat.sub_le 128 _

/-- No free block fits a request for `r` bytes, and the last block is not a
free one that could grow. -/
structure NeedsBlock (v : Version) (s : Heap) (r : Nat) : Prop where
  inRange : ¬(v.round r = 0 ∨ maxRequest < v.round r)
  small : v.round r < mmapSize
  noFit : searchHisto s (v.round r) (128 - v.round r / 1024) (v.bucketsFrom_le r) = .ok 0
  noWilderness : ¬(s.allListEnd ≠ 0 ∧ s.isFree s.allListEnd = true)

/-- A request for `r` bytes gets a header from `sbrk` and then no payload. (An
old break of 0 reads as `NULL`, and no header is made.) -/
structure Strands (v : Version) (os : Os) (s : Heap) (r : Nat) : Prop where
  needs : NeedsBlock v s r
  brk : s.kernel.brk ≠ 0
  header : Granted os s.kernel metaSize
  noPayload : ¬Granted os (s.kernel.moved metaSize) (v.round r)

/-- A request for `r` bytes is refused. -/
inductive Refuses (v : Version) (os : Os) (s : Heap) (r : Nat) : Prop where
  | range (h : v.round r = 0 ∨ maxRequest < v.round r)
  | unmapped (hbig : mmapSize ≤ v.round r)
      (h : (mmap os s.kernel (sizeT (v.round r + metaSize))).1 = none)
  | wilderness (hsmall : v.round r < mmapSize)
      (hfit : searchHisto s (v.round r) (128 - v.round r / 1024) (v.bucketsFrom_le r) = .ok 0)
      (hend : s.allListEnd ≠ 0 ∧ s.isFree s.allListEnd = true)
      (h : ¬Granted os s.kernel (subT (v.round r) (s.get .size s.allListEnd)))
  | header (hneeds : NeedsBlock v s r) (h : ¬Granted os s.kernel metaSize)
  | payload (h : Strands v os s r)

/-- The request is half done when it is refused. -/
def HalfDone (v : Version) (os : Os) (s : Heap) (q : Request) : Prop :=
  ∃ r, q.Asks v s r ∧ Strands v os s r

/-! ## The ways through `smalloc` -/

/-- Every result of `smalloc`, with what the heap was like before. -/
inductive Path (v : Version) (os : Os) (s : Heap) (r : Nat) : Nat × Heap → Prop where
  | refused (k : Kernel) (hno : ¬Strands v os s r) (h : s.kernel.brk ≠ 0 → Refuses v os s r) :
      Path v os s r (0, { s with kernel := k })
  | stranded (s' : Heap) (h : Strands v os s r)
      (hnum : s'.numOfMetadatas = s.numOfMetadatas + 1) : Path v os s r (0, s')
  | mapped (a : Nat) (s' : Heap) (hno : ¬Refuses v os s r)
      (hsize : s'.get .size a = v.round r) : Path v os s r (a + metaSize, s')
  | block (a : Nat) (s' : Heap) (hno : ¬Refuses v os s r) (hsmall : v.round r < mmapSize) :
      Path v os s r (a + metaSize, s')

section Paths

variable {v : Version} {os : Os} {s s' : Heap} {k : Kernel} {x : Nat × Heap} {r n p : Nat}

/-- The header of a new block. -/
theorem createMetadataSbrk_path (os : Os) (s : Heap) (n : Nat) :
    (∃ k, createMetadataSbrk os s n false = (0, { s with kernel := k }) ∧
      (s.kernel.brk = 0 ∨ ¬Granted os s.kernel metaSize)) ∨
    ∃ s', createMetadataSbrk os s n false = (s.kernel.brk, s') ∧ s.kernel.brk ≠ 0 ∧
      Granted os s.kernel metaSize ∧ s'.kernel = s.kernel.moved metaSize ∧
      s'.numOfMetadatas = s.numOfMetadatas + 1 := by
  have hrange : ¬(metaSize = 0 ∨ maxRequest < metaSize) := by decide
  rw [createMetadataSbrk, smallocNaive, if_neg hrange]
  rcases sbrk_cases os s.kernel (n := metaSize) (by decide) with hsb | ⟨-, hsb⟩
  · refine .inl ⟨s.kernel.refused, ?_, .inr fun hg => hg (by rw [hsb])⟩
    rw [hsb]
    rfl
  · rw [hsb]
    by_cases hb : s.kernel.brk = 0
    · exact .inl ⟨_, if_pos hb, .inl hb⟩
    · refine .inr ⟨_, if_neg hb, hb, ?_, rfl, rfl⟩
      rw [Granted, hsb]
      exact Option.some_ne_none _

/-- **`mmap_wrapper`**, on any heap. -/
theorem mmapWrapper_path (hr : ¬(v.round r = 0 ∨ maxRequest < v.round r))
    (hbig : mmapSize ≤ v.round r) : Path v os s r (mmapWrapper os s (v.round r)) := by
  have hmr : maxRequest = 100000000 := rfl
  rw [mmapWrapper]
  cases hmap : mmap os s.kernel (sizeT (v.round r + metaSize)) with
  | mk a k =>
      cases a with
      | none =>
          exact .refused k (fun hs => absurd hs.needs.small (Nat.not_lt.mpr hbig))
            fun _ => .unmapped hbig (by rw [hmap])
      | some a =>
          refine .mapped a _ ?_ ?_
          · intro href
            cases href with
            | range h => exact hr h
            | unmapped _ h =>
                rw [hmap] at h
                cases h
            | wilderness hsmall => exact absurd hsmall (Nat.not_lt.mpr hbig)
            | header hneeds => exact absurd hneeds.small (Nat.not_lt.mpr hbig)
            | payload h => exact absurd h.needs.small (Nat.not_lt.mpr hbig)
          · have hword : v.round r < 256 ^ Field.size.width := by
              change _ < 256 ^ 8
              omega
            refine (get_of_mem rfl _ _).trans ?_
            rw [Heap.get, Heap.put, Mem.loadLE_storeLE_self, Nat.mod_eq_of_lt hword]

/-- **`sbrk_wrapper`**, where no free block fits. -/
theorem sbrkWrapper_path (hr : ¬(v.round r = 0 ∨ maxRequest < v.round r))
    (hsmall : v.round r < mmapSize)
    (hfit : searchHisto s (v.round r) (128 - v.round r / 1024) (v.bucketsFrom_le r) = .ok 0)
    (hrun : sbrkWrapper os s (v.round r) = .ok x) : Path v os s r x := by
  have hmm : mmapSize = 131072 := rfl
  have hnone : ∀ {k : Kernel} {n : Nat} {k' : Kernel}, sbrk os k (toIntptr n) = (none, k') →
      ¬Granted os k n := fun hsb hg => hg (by rw [hsb])
  have hsome : ∀ {k : Kernel} {n a : Nat} {k' : Kernel}, sbrk os k (toIntptr n) = (some a, k') →
      Granted os k n := fun hsb hg => by
    rw [hsb] at hg
    cases hg
  rw [sbrkWrapper] at hrun
  by_cases hend : s.allListEnd ≠ 0 ∧ s.isFree s.allListEnd = true
  · -- the wilderness grows
    rw [if_pos hend] at hrun
    have hno : ¬Strands v os s r := fun hs => hs.needs.noWilderness hend
    cases hsb : sbrk os s.kernel (toIntptr (subT (v.round r) (s.get .size s.allListEnd))) with
    | mk a k =>
        rw [hsb] at hrun
        cases a with
        | none =>
            exact Except.ok.inj hrun ▸
              .refused k hno fun _ => .wilderness hsmall hfit hend (hnone hsb)
        | some a =>
            obtain ⟨t, -, hrun⟩ := bind_eq_ok.mp hrun
            refine Except.ok.inj hrun ▸ .block _ _ ?_ hsmall
            intro href
            cases href with
            | range h => exact hr h
            | unmapped hbig => exact absurd hbig (Nat.not_le.mpr hsmall)
            | wilderness _ _ _ h => exact h (hsome hsb)
            | header hneeds => exact hneeds.noWilderness hend
            | payload h => exact hno h
  · rw [if_neg hend] at hrun
    have hneeds : NeedsBlock v s r := ⟨hr, hsmall, hfit, hend⟩
    rcases createMetadataSbrk_path os s (v.round r) with
      ⟨k, hmk, hgrant⟩ | ⟨t, hmk, hb, hgrant, hk, hnum⟩
    · rw [hmk] at hrun
      exact Except.ok.inj hrun ▸ .refused k (fun hs => hgrant.elim hs.brk fun hg => hg hs.header)
        fun hbrk => .header hneeds (hgrant.resolve_left hbrk)
    · rw [hmk] at hrun
      simp only [if_neg hb, hk] at hrun
      rcases sbrk_cases os (s.kernel.moved metaSize) (n := v.round r) (by omega) with
        hsb | ⟨-, hsb⟩
      · rw [hsb] at hrun
        exact Except.ok.inj hrun ▸ .stranded _ ⟨hneeds, hb, hgrant, hnone hsb⟩ hnum
      · rw [hsb] at hrun
        refine Except.ok.inj hrun ▸ .block s.kernel.brk _ ?_ hsmall
        intro href
        cases href with
        | range h => exact hr h
        | unmapped hbig => exact absurd hbig (Nat.not_le.mpr hsmall)
        | wilderness _ _ h => exact hend h
        | header _ h => exact h hgrant
        | payload h => exact h.noPayload (hsome hsb)

/-- **`smalloc`** takes one of the paths. -/
theorem smalloc_path (hrun : smalloc v os s r = .ok x) : Path v os s r x := by
  rw [smalloc] at hrun
  by_cases hr : v.round r = 0 ∨ maxRequest < v.round r
  · simp only [if_pos hr] at hrun
    exact Except.ok.inj hrun ▸ .refused s.kernel (fun hs => hs.needs.inRange hr) fun _ => .range hr
  simp only [if_neg hr] at hrun
  by_cases hbig : mmapSize ≤ v.round r
  · rw [if_pos hbig] at hrun
    exact Except.ok.inj hrun ▸ mmapWrapper_path hr hbig
  rw [if_neg hbig] at hrun
  obtain ⟨c, hfit, hrun⟩ := bind_eq_ok.mp hrun
  by_cases hc : c = 0
  · rw [if_pos hc] at hrun
    exact sbrkWrapper_path hr (Nat.not_le.mp hbig) (hc ▸ hfit) hrun
  -- a free block
  have hno : ¬Refuses v os s r := by
    have hne : ¬searchHisto s (v.round r) (128 - v.round r / 1024) (v.bucketsFrom_le r) = .ok 0 :=
      fun h0 => hc (Except.ok.inj (hfit.symm.trans h0))
    intro href
    cases href with
    | range h => exact hr h
    | unmapped h => exact hbig h
    | wilderness _ h => exact hne h
    | header h => exact hne h.noFit
    | payload h => exact hne h.needs.noFit
  rw [if_neg hc] at hrun
  split_ifs at hrun
  all_goals
    obtain ⟨t, -, hrun⟩ := bind_eq_ok.mp hrun
    exact Except.ok.inj hrun ▸ .block c _ hno (Nat.not_le.mp hbig)

/-- **When `smalloc` returns `NULL`.** -/
theorem smalloc_eq_null_iff (hrun : smalloc v os s r = .ok x) (hbrk : s.kernel.brk ≠ 0) :
    x.1 = 0 ↔ Refuses v os s r := by
  cases smalloc_path hrun with
  | refused k hno h => exact iff_of_true rfl (h hbrk)
  | stranded s' h hnum => exact iff_of_true rfl (.payload h)
  | mapped a s' hno hsize => exact iff_of_false (Nat.succ_ne_zero _) hno
  | block a s' hno hsmall => exact iff_of_false (Nat.succ_ne_zero _) hno

end Paths

/-! ## `srealloc` -/

section Realloc

variable {v : Version} {os : Os} {s s' : Heap} {q : Request} {m n p r : Nat}

theorem splitIfLarge_fst {x : Nat × Heap} (h : splitIfLarge s m n = .ok x) :
    x.1 = m + metaSize := by
  rw [splitIfLarge] at h
  split_ifs at h
  · obtain ⟨t, -, h⟩ := bind_eq_ok.mp h
    exact congrArg Prod.fst (Except.ok.inj h).symm
  · exact congrArg Prod.fst (Except.ok.inj h).symm

/-- The end of the branches that move the data: `NULL` comes from `smalloc`. -/
theorem moved_null {oldp : Nat} {f : Heap → Nat} (h : (do
      let (newp, s) ← smalloc v os s n
      if newp = 0 then return (0, s)
      let s := s.memmove newp oldp (f s)
      let s ← sfree s oldp
      return (newp, s)) = .ok (0, s')) : smalloc v os s n = .ok (0, s') := by
  obtain ⟨⟨newp, t⟩, hrun, h⟩ := bind_eq_ok.mp h
  by_cases hp : newp = 0
  · simp only [hp, if_true] at h
    obtain rfl : t = s' := congrArg Prod.snd (Except.ok.inj h)
    exact hp ▸ hrun
  · simp only [hp, if_false] at h
    obtain ⟨t', -, h⟩ := bind_eq_ok.mp h
    exact absurd (congrArg Prod.fst (Except.ok.inj h)) hp

/-- Where the block can be dealt with in place, only the wilderness can be
refused. -/
theorem InPlace.not_asks (h : InPlace s (p - metaSize) (v.round n)) (hp : p ≠ 0) :
    ¬Request.Asks v s (.srealloc p n) r := by
  rintro (_ | _ | ⟨_, _, _, h' | h'⟩)
  · exact hp h'
  · exact h' h

/-- **`srealloc`**: a `NULL` comes from `smalloc`, or nothing was done. -/
theorem srealloc_null (h : srealloc v os s p n = .ok (0, s')) :
    (∃ r, Request.Asks v s (.srealloc p n) r ∧ smalloc v os s r = .ok (0, s')) ∨
      (∀ r, ¬Request.Asks v s (.srealloc p n) r) ∧ ∃ k, s' = { s with kernel := k } := by
  have hnotNull : ∀ {a b : Nat} {t : Heap}, a + metaSize = b → (b, t) ≠ (0, s') := by
    rintro a b t hb he
    exact Nat.succ_ne_zero _ (hb.trans (congrArg Prod.fst he))
  rw [srealloc] at h
  by_cases hr : v.round n = 0 ∨ maxRequest < v.round n
  · simp only [if_pos hr] at h
    refine .inr ⟨?_, s.kernel, (congrArg Prod.snd (Except.ok.inj h)).symm⟩
    rintro r (_ | _ | ⟨_, _, hr', _⟩)
    exact hr' hr
  simp only [if_neg hr] at h
  by_cases hp : p = 0
  · rw [if_pos hp] at h
    exact .inl ⟨_, .srealloc p n hr (.inl hp), h⟩
  rw [if_neg hp] at h
  by_cases hbig : mmapSize ≤ v.round n
  · rw [if_pos hbig] at h
    exact .inl ⟨_, .srealloc p n hr (.inr fun hin => absurd hin.small (Nat.not_lt.mpr hbig)),
      moved_null (f := fun t => min (t.get .size (p - metaSize)) (v.round n)) h⟩
  have hsmall := Nat.not_le.mp hbig
  rw [if_neg hbig] at h
  -- a
  by_cases ha : s.get .size (p - metaSize) ≥ v.round n
  · rw [if_pos ha] at h
    split_ifs at h
    · obtain ⟨t, -, h⟩ := bind_eq_ok.mp h
      exact absurd (Except.ok.inj h) (hnotNull rfl)
    · exact absurd (congrArg Prod.fst (Except.ok.inj h)) hp
  rw [if_neg ha] at h
  -- b, c and d end in `splitIfLarge`
  have hsplit : ∀ {t : Heap} {m : Nat}, splitIfLarge t m (v.round n) ≠ .ok (0, s') := by
    intro t m ht
    exact Nat.succ_ne_zero _ (splitIfLarge_fst ht).symm
  split_ifs at h with hb hc hd hw
  · obtain ⟨t, -, h⟩ := bind_eq_ok.mp h
    obtain ⟨t', -, h⟩ := bind_eq_ok.mp h
    exact absurd h hsplit
  · obtain ⟨t, -, h⟩ := bind_eq_ok.mp h
    obtain ⟨t', -, h⟩ := bind_eq_ok.mp h
    exact absurd h hsplit
  · obtain ⟨t, -, h⟩ := bind_eq_ok.mp h
    obtain ⟨t', -, h⟩ := bind_eq_ok.mp h
    cases v with
    | malloc3 => exact absurd h hsplit
    | malloc4 =>
        obtain ⟨t'', -, h⟩ := bind_eq_ok.mp h
        exact absurd h hsplit
  · -- the wilderness
    refine .inr ⟨fun r => InPlace.not_asks ⟨hsmall, .inr (.inr (.inr (.inr hw)))⟩ hp, ?_⟩
    cases hsb : sbrk os s.kernel
        (toIntptr (subT (v.round n) (s.get .size (p - metaSize)))) with
    | mk a k =>
        rw [hsb] at h
        cases a with
        | none => exact ⟨k, (congrArg Prod.snd (Except.ok.inj h)).symm⟩
        | some a => exact absurd (Except.ok.inj h) (hnotNull rfl)
  · refine .inl ⟨_, .srealloc p n hr (.inr ?_),
      moved_null (f := fun t => min (t.get .size (p - metaSize)) (v.round n)) h⟩
    rintro ⟨-, h | h | h | h | h⟩
    · exact ha h
    · exact hb h
    · exact hc h
    · exact hd h
    · exact hw h

end Realloc

/-! ## What a refusal changes -/

/-- The nodes of a chain, with their sizes and flags. -/
def chain (s : Heap) (next : Field) : Nat → Nat → Except Fault (List (Nat × Nat × Bool))
  | 0, _ => .error .diverges
  | fuel + 1, ptr =>
      if ptr = 0 then .ok []
      else do
        let rest ← chain s next fuel (s.get next ptr)
        return (ptr, s.get .size ptr, s.isFree ptr) :: rest

/-- The five statistics, the heap list and the histogram are the same. -/
structure Unchanged (s s' : Heap) : Prop where
  numFreeBlocks : numFreeBlocks s' = numFreeBlocks s
  numFreeBytes : numFreeBytes s' = numFreeBytes s
  numAllocatedBlocks : numAllocatedBlocks s' = numAllocatedBlocks s
  numAllocatedBytes : numAllocatedBytes s' = numAllocatedBytes s
  numMetaDataBytes : numMetaDataBytes s' = numMetaDataBytes s
  allList : chain s' .listNext walkFuel s'.allListHead = chain s .listNext walkFuel s.allListHead
  histogram : ∀ i, chain s' .histoNext walkFuel (s'.freeHistogram i) =
    chain s .histoNext walkFuel (s.freeHistogram i)

section Refusals

variable {v : Version} {os : Os} {s s' : Heap} {k : Kernel} {q : Request} {r : Nat}

theorem chain_setKernel (next : Field) (fuel ptr : Nat) :
    chain { s with kernel := k } next fuel ptr = chain s next fuel ptr := by
  induction fuel generalizing ptr with
  | zero => rfl
  | succ fuel ih =>
      simp only [chain]
      rw [ih]
      rfl

theorem walkAllList_setKernel (add : Nat → Nat) (fuel current res : Nat) :
    walkAllList { s with kernel := k } add fuel current res =
      walkAllList s add fuel current res := by
  induction fuel generalizing current res with
  | zero => rfl
  | succ fuel ih =>
      simp only [walkAllList]
      rw [ih]
      rfl

theorem numAllocatedBlocks_setKernel :
    numAllocatedBlocks { s with kernel := k } = numAllocatedBlocks s := by
  rw [numAllocatedBlocks, walkAllList_setKernel]
  rfl

theorem numAllocatedBytes_setKernel :
    numAllocatedBytes { s with kernel := k } = numAllocatedBytes s := by
  have hget : Heap.get { s with kernel := k } .size = s.get .size := rfl
  rw [numAllocatedBytes, hget, walkAllList_setKernel]
  rfl

/-- The kernel is not part of the statistics. -/
theorem Unchanged.setKernel (s : Heap) (k : Kernel) : Unchanged s { s with kernel := k } where
  numFreeBlocks := walkAllList_setKernel _ _ _ _
  numFreeBytes := walkAllList_setKernel _ _ _ _
  numAllocatedBlocks := numAllocatedBlocks_setKernel
  numAllocatedBytes := numAllocatedBytes_setKernel
  numMetaDataBytes := rfl
  allList := chain_setKernel _ _ _
  histogram _ := chain_setKernel _ _ _

/-- One more header is always seen. -/
theorem numMetaDataBytes_succ (h : s'.numOfMetadatas = s.numOfMetadatas + 1) :
    numMetaDataBytes s' ≠ numMetaDataBytes s := by
  rw [numMetaDataBytes, numMetaDataBytes, h]
  change sizeT ((s.numOfMetadatas + 1) * 48) ≠ sizeT (s.numOfMetadatas * 48)
  unfold sizeT
  omega

theorem smalloc_null (hrun : smalloc v os s r = .ok (0, s')) :
    Unchanged s s' ↔ ¬Strands v os s r := by
  generalize hx : (0, s') = x at hrun
  cases smalloc_path hrun with
  | refused k hno h =>
      cases hx
      exact iff_of_true (.setKernel s k) hno
  | stranded s' h hnum =>
      cases hx
      exact iff_of_false (fun hu => numMetaDataBytes_succ hnum hu.numMetaDataBytes)
        (not_not_intro h)
  | mapped a s' hno hsize => cases hx
  | block a s' hno hsmall => cases hx

/-- A `NULL` from any request is one from `smalloc`, or nothing was done. -/
theorem serve_null (h : serve v os s q = .ok (0, s')) :
    (∃ r, q.Asks v s r ∧ smalloc v os s r = .ok (0, s')) ∨
      (∀ r, ¬q.Asks v s r) ∧ ∃ k, s' = { s with kernel := k } := by
  cases q with
  | smalloc size => exact .inl ⟨size, .smalloc size, h⟩
  | scalloc num size =>
      obtain ⟨⟨p, t⟩, hrun, h⟩ := bind_eq_ok.mp h
      by_cases hp : p = 0
      · simp only [hp, if_true] at h
        obtain rfl : t = s' := congrArg Prod.snd (Except.ok.inj h)
        exact .inl ⟨_, .scalloc num size, hp ▸ hrun⟩
      · simp only [hp, if_false] at h
        exact absurd (congrArg Prod.fst (Except.ok.inj h)) hp
  | srealloc oldp size => exact srealloc_null h

theorem Request.Asks.unique {r' : Nat} (h : q.Asks v s r) (h' : q.Asks v s r') : r = r' := by
  cases h <;> cases h' <;> rfl

/-- **What a `NULL` changes**, on any heap. -/
theorem null_unchanged_iff (h : serve v os s q = .ok (0, s')) :
    Unchanged s s' ↔ ¬HalfDone v os s q := by
  rcases serve_null h with ⟨r, hasks, hrun⟩ | ⟨hno, k, rfl⟩
  · rw [smalloc_null hrun, HalfDone]
    refine not_congr ⟨fun hs => ⟨r, hasks, hs⟩, ?_⟩
    rintro ⟨r', hasks', hs⟩
    exact hasks.unique hasks' ▸ hs
  · exact iff_of_true (.setKernel s k) fun ⟨r, hasks, _⟩ => hno r hasks

end Refusals

end OsAllHw.Malloc
