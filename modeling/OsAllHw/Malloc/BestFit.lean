import OsAllHw.Malloc.Release

/-!
# Best fit, and when the heap grows

`smalloc` of `malloc_4.cpp` below `MMAP_SIZE` hands out a smallest free block
that fits, and moves the program break only if there is none: by what the
wilderness block is short of, if that is free, else by a header and a
payload. The search is complete over all free blocks, so the wilderness is
smaller than the request and the difference never wraps.
-/

namespace OsAllHw.Malloc

open Lib

section Kernel

variable {os : Os} {s s' : Heap} {k k' : Kernel} {a q r : Nat}

theorem removeNodeHisto_kernel {p : Nat} (h : removeNodeHisto s p = .ok s') :
    s'.kernel = s.kernel := by
  have hunlink : ∀ i, (unlinkHisto s i p).kernel = s.kernel := by
    intro i
    unfold unlinkHisto
    dsimp only
    split_ifs <;> rfl
  unfold removeNodeHisto at h
  split_ifs at h
  · cases h; rfl
  · cases h; rfl
  · cases hi : histoIndex .removeIndex (s.get .size p) with
    | error f => rw [hi] at h; cases h
    | ok i =>
        rw [hi, ok_bind, pure_eq_ok, Except.ok.injEq] at h
        rw [← h]
        split_ifs
        · rfl
        · exact hunlink i

theorem addNodeList_kernel (s : Heap) (p q : Nat) : (addNodeList s p q).kernel = s.kernel := by
  unfold addNodeList
  dsimp only
  split_ifs <;> rfl

/-- The kernel after the wilderness has grown. -/
theorem sbrkWrapper_grow (hend : s.allListEnd ≠ 0 ∧ s.isFree s.allListEnd = true)
    (hsb : sbrk os s.kernel (toIntptr (subT r (s.get .size s.allListEnd))) = (some a, k))
    (hrun : sbrkWrapper os s r = .ok (q, s')) : s'.kernel = k := by
  rw [sbrkWrapper, if_pos hend, hsb] at hrun
  cases hrem : removeNodeHisto { s with kernel := k } s.allListEnd with
  | error f =>
      simp only [hrem] at hrun
      cases hrun
  | ok t =>
      simp only [hrem, ok_bind, pure_eq_ok, Except.ok.injEq, Prod.mk.injEq] at hrun
      rw [← hrun.2]
      exact removeNodeHisto_kernel hrem

/-- The kernel after both calls for a new block. -/
theorem sbrkWrapper_fresh (hend : ¬(s.allListEnd ≠ 0 ∧ s.isFree s.allListEnd = true))
    (ha : a ≠ 0) (hsb : sbrk os s.kernel (toIntptr metaSize) = (some a, k))
    (hsb' : sbrk os k (toIntptr r) = (some q, k')) :
    ∃ s', sbrkWrapper os s r = .ok (q, s') ∧ s'.kernel = k' := by
  have hnaive : smallocNaive os s metaSize = (a, { s with kernel := k }) := by
    rw [smallocNaive, if_neg (by decide), hsb]
  obtain ⟨t, hmk, ht⟩ : ∃ t, createMetadataSbrk os s r false = (a, t) ∧ t.kernel = k := by
    rw [createMetadataSbrk, hnaive]
    exact ⟨_, if_neg ha, rfl⟩
  refine ⟨addNodeList { t with kernel := k' } a t.allListEnd, ?_, addNodeList_kernel _ _ _⟩
  rw [sbrkWrapper, if_neg hend, hmk]
  refine (if_neg ha).trans ?_
  rw [ht, hsb']
  rfl

end Kernel

section Grow

variable {os : Os} {s : Heap} {L B : List Block} {w : Block} {r : Nat}

/-- The wilderness grows by exactly what it is short of. -/
theorem Rep.grow_granted (h : Rep os s (L ++ [w])) (hw : w.free = true) (hr : r < mmapSize)
    (hnone : ∀ c ∈ L ++ [w], c.free = true → c.size < r)
    (hgrant : Granted os s.kernel (r - w.size)) :
    ∃ s', sbrkWrapper os s r = .ok (w.payload, s') ∧
      s'.kernel = s.kernel.moved (r - w.size) ∧ Rep os s' (L ++ [⟨w.addr, r, false⟩]) := by
  have hmem : w ∈ L ++ [w] := by simp
  have hmm : mmapSize = 131072 := rfl
  have hend : s.allListEnd = w.addr := h.core.last.trans (lastAddr_concat L w)
  have hsub : subT r (s.get .size s.allListEnd) = r - w.size := by
    have := hnone w hmem hw
    rw [hend, h.core.size w hmem]
    exact subT_of_le (by omega) (by omega)
  have hguard : s.allListEnd ≠ 0 ∧ s.isFree s.allListEnd = true := by
    rw [hend]
    exact ⟨h.addr_ne_zero hmem, (h.core.flag w hmem).trans hw⟩
  have hsb := hgrant.moves (by omega)
  obtain ⟨⟨q, s'⟩, hrun, hans⟩ := h.grow hw hr hnone
  have hk := sbrkWrapper_grow hguard (by rw [hsub]; exact hsb) hrun
  cases hans with
  | null _ _ _ hfail =>
      rw [hk] at hfail
      exact absurd hfail (Nat.lt_irrefl _)
  | block B' _ _ hrel hrep _ =>
      refine ⟨s', ?_, hk, ?_⟩
      all_goals
        generalize hB : L ++ [w] = B at hrel
        cases hrel with
        | reuse L₁ R₁ b hb hle hbest =>
            exact absurd (hnone b (by rw [hB]; simp) hb) (Nat.not_lt.mpr hle)
        | grow L₁ b hb hnone₁ =>
            obtain ⟨rfl, hwb⟩ := List.append_inj' hB rfl
            obtain rfl : w = b := List.singleton_inj.mp hwb
            first
            | exact hrun
            | exact hrep
        | fresh _ hlast hnone₁ =>
            have := hlast L w hB.symm
            rw [hw] at this
            cases this

/-- A new block takes a header and a payload. -/
theorem Rep.fresh_granted (h : Rep os s B) (hlast : LastUsed B) (hr : r < mmapSize)
    (hnone : ∀ c ∈ B, c.free = true → c.size < r) (hgrant : Granted os s.kernel metaSize)
    (hgrant' : Granted os (s.kernel.moved metaSize) r) :
    ∃ s', sbrkWrapper os s r = .ok (s.kernel.brk + metaSize, s') ∧
      s'.kernel = (s.kernel.moved metaSize).moved r ∧
      Rep os s' (B ++ [⟨s.kernel.brk, r, false⟩]) := by
  have hmm : mmapSize = 131072 := rfl
  have hguard : ¬(s.allListEnd ≠ 0 ∧ s.isFree s.allListEnd = true) := by
    rintro ⟨h1, h2⟩
    rcases hlast.allListEnd h with h3 | h3
    · exact h1 h3
    · rw [h2] at h3
      cases h3
  have hb0 : s.kernel.brk ≠ 0 := Nat.ne_of_gt (os.brk0_pos.trans_le h.core.layout.le)
  obtain ⟨s', hrun, hk⟩ := sbrkWrapper_fresh (r := r) hguard hb0 (hgrant.moves (by decide))
    (hgrant'.moves (by omega))
  obtain ⟨⟨q, t⟩, hrun', hans⟩ := h.fresh hlast hr hnone
  have hpair : (s.kernel.brk + metaSize, s') = (q, t) := Except.ok.inj (hrun.symm.trans hrun')
  obtain rfl : s' = t := congrArg Prod.snd hpair
  refine ⟨s', hrun, hk, ?_⟩
  cases hans with
  | null _ _ _ hfail =>
      rw [hk] at hfail
      exact absurd hfail (Nat.lt_irrefl _)
  | block B' _ _ hrel hrep _ =>
      cases hrel with
      | reuse L₁ R₁ b hb hle hbest =>
          exact absurd (hnone b (by simp) hb) (Nat.not_lt.mpr hle)
      | grow L₁ b hb hnone₁ =>
          have := hlast L₁ b rfl
          rw [hb] at this
          cases this
      | fresh _ hlast₁ hnone₁ => exact hrep

end Grow

theorem LastUsed.concat {L : List Block} {b : Block} (hb : b.free = false) :
    LastUsed (L ++ [b]) := by
  intro L' b' hL
  obtain ⟨-, heq⟩ := List.append_inj' hL rfl
  rw [← List.singleton_inj.mp heq, hb]

/-- The kernel that refuses nothing has a terabyte. -/
theorem granted_generous {k : Kernel} {n : Nat} (hlo : 4096 ≤ k.brk) (hhi : k.brk + n ≤ 2 ^ 40) :
    Granted .generous k n := by
  have hbrk0 : (Os.generous).brk0 = 4096 := rfl
  have hlimit : (Os.generous).limit = 2 ^ 40 := rfl
  rw [Granted, sbrk, toIntptr_of_lt (by omega), if_pos ⟨rfl, by omega, by omega⟩]
  simp

/-- A block that no free one fits is made at the break. -/
theorem exists_next {s : Heap} {B : List Block} {r : Nat} (h : Rep .generous s B)
    (hlast : LastUsed B) (hr : r < mmapSize) (hnone : ∀ c ∈ B, c.free = true → c.size < r)
    (hroom : s.kernel.brk + metaSize + r ≤ 2 ^ 40) :
    ∃ s', s'.kernel.brk = s.kernel.brk + metaSize + r ∧
      Rep .generous s' (B ++ [⟨s.kernel.brk, r, false⟩]) := by
  have hlo : 4096 ≤ s.kernel.brk := h.core.layout.le
  obtain ⟨s', -, hk, hrep⟩ := h.fresh_granted hlast hr hnone
    (granted_generous hlo (by omega))
    (granted_generous (k := s.kernel.moved metaSize) (hlo.trans (Nat.le_add_right ..)) hroom)
  exact ⟨s', by rw [hk]; rfl, hrep⟩

/-- Two blocks of 104 bytes at the start of the data segment. -/
def twoBlocks : List Block := [⟨4096, 104, false⟩, ⟨4248, 104, false⟩]

/-- Two requests lead there. -/
theorem exists_two_blocks : ∃ s, s.kernel.brk = 4400 ∧ Rep .generous s twoBlocks := by
  have hinit := (Inv.init .generous fun _ => 0).rep
  obtain ⟨s₁, hbrk₁, h₁⟩ := exists_next (r := 104) hinit
    (fun L b hL => absurd hL.symm (by simp)) (by decide) (fun c hc => absurd hc List.not_mem_nil)
    (by decide +kernel)
  obtain ⟨s₂, hbrk₂, h₂⟩ := exists_next (r := 104) h₁ (.concat rfl) (by decide) (by simp)
    (by rw [hbrk₁]; decide +kernel)
  rw [hbrk₁] at h₂ hbrk₂
  exact ⟨s₂, hbrk₂, h₂⟩

/-- Free blocks of two sizes, the larger one last. -/
def twoSizes : List Block := [⟨4096, 104, true⟩, ⟨4248, 104, false⟩, ⟨4400, 1000, true⟩]

/-- A third request, and two of the blocks are released. -/
theorem exists_two_sizes : ∃ s, s.kernel.brk = 5448 ∧ Rep .generous s twoSizes := by
  obtain ⟨s, hbrk, h⟩ := exists_two_blocks
  obtain ⟨s₁, hbrk₁, h₁⟩ := exists_next (r := 1000) h
    (LastUsed.concat (L := [⟨4096, 104, false⟩]) rfl) (by decide) (by simp [twoBlocks])
    (by rw [hbrk]; decide)
  rw [hbrk] at h₁ hbrk₁
  have h₁' : Rep .generous s₁
      ([] ++ ⟨4096, 104, false⟩ :: [⟨4248, 104, false⟩, ⟨4400, 1000, false⟩]) := h₁
  obtain ⟨s₂, -, h₂, hrel₂, -⟩ := sfree_releases h₁' rfl (by decide)
  have h₂' : Rep .generous s₂
      ([⟨4096, 104, true⟩, ⟨4248, 104, false⟩] ++ ⟨4400, 1000, false⟩ :: []) := h₂
  obtain ⟨s₃, -, h₃, hrel₃, -⟩ := sfree_releases h₂' rfl (by decide)
  have hkernel : s₃.kernel = s₁.kernel := hrel₃.tame.kernel.trans hrel₂.tame.kernel
  exact ⟨s₃, (congrArg Kernel.brk hkernel).trans hbrk₁, h₃⟩

/-- Its free blocks. -/
theorem twoSizes_split {L R : List Block} {b : Block} (h : twoSizes = L ++ b :: R)
    (hb : b.free = true) :
    L = [] ∧ b = ⟨4096, 104, true⟩ ∧ R = [⟨4248, 104, false⟩, ⟨4400, 1000, true⟩] ∨
      L = [⟨4096, 104, true⟩, ⟨4248, 104, false⟩] ∧ b = ⟨4400, 1000, true⟩ ∧ R = [] := by
  unfold twoSizes at h
  obtain _ | ⟨l₁, _ | ⟨l₂, _ | ⟨l₃, L⟩⟩⟩ := L
  · simp only [List.nil_append, List.cons.injEq] at h
    exact .inl ⟨rfl, h.1.symm, h.2.symm⟩
  · simp only [List.cons_append, List.nil_append, List.cons.injEq] at h
    rw [← h.2.1] at hb
    cases hb
  · simp only [List.cons_append, List.nil_append, List.cons.injEq] at h
    obtain ⟨rfl, rfl, rfl, rfl⟩ := h
    exact .inr ⟨rfl, rfl, rfl⟩
  · simp at h

/-- **Best fit.** A request below `MMAP_SIZE` gets a smallest free block that
fits, cut if 128 bytes and a header would be left, and the kernel is not
called. Where none fits, a free wilderness block grows by what it is short
of, and otherwise a new block is made at the break. -/
theorem best_fit {os : Os} {s : Heap} {B : List Block} {size : Nat} (h : Rep os s B)
    (h0 : 0 < roundUp size) (hlt : roundUp size < mmapSize) :
    ((∃ c ∈ B, c.free = true ∧ roundUp size ≤ c.size) →
      ∃ L b R s', B = L ++ b :: R ∧ BestFit (roundUp size) B b ∧
        smalloc .malloc4 os s size = .ok (b.payload, s') ∧ s'.kernel = s.kernel ∧
        Rep os s' (L ++ cut b (roundUp size) ++ R)) ∧
    ((∀ c ∈ B, c.free = true → c.size < roundUp size) →
      (∀ L w, B = L ++ [w] → w.free = true →
        subT (roundUp size) (s.get .size s.allListEnd) = roundUp size - w.size ∧
        0 < roundUp size - w.size ∧
        (Granted os s.kernel (roundUp size - w.size) →
          ∃ s', smalloc .malloc4 os s size = .ok (w.payload, s') ∧
            s'.kernel.brk = s.kernel.brk + (roundUp size - w.size) ∧
            Rep os s' (L ++ [⟨w.addr, roundUp size, false⟩]))) ∧
      (LastUsed B → Granted os s.kernel metaSize →
        Granted os (s.kernel.moved metaSize) (roundUp size) →
          ∃ s', smalloc .malloc4 os s size = .ok (s.kernel.brk + metaSize, s') ∧
            s'.kernel.brk = s.kernel.brk + (roundUp size + metaSize) ∧
            Rep os s' (B ++ [⟨s.kernel.brk, roundUp size, false⟩]))) := by
  have hr0 : roundUp size ≠ 0 := Nat.ne_of_gt h0
  refine ⟨fun hfit => ?_, fun hnone => ⟨?_, ?_⟩⟩
  · obtain ⟨L, b, R, s', rfl, hbest, hrun, hrep, -, htame, -⟩ :=
      smalloc_found .malloc4 size h hr0 hlt hfit
    exact ⟨L, b, R, s', rfl, hbest, hrun, htame.kernel, hrep⟩
  · rintro L w rfl hw
    have hmem : w ∈ L ++ [w] := by simp
    have hmm : mmapSize = 131072 := rfl
    have hshort := hnone w hmem hw
    refine ⟨?_, by omega, fun hgrant => ?_⟩
    · rw [h.core.last, lastAddr_concat, h.core.size w hmem]
      exact subT_of_le (by omega) (by omega)
    · obtain ⟨s', hrun, hk, hrep⟩ := h.grow_granted hw hlt hnone hgrant
      refine ⟨s', (smalloc_none .malloc4 size h hr0 hlt hnone).trans hrun, ?_, hrep⟩
      rw [hk]
      rfl
  · intro hlast hgrant hgrant'
    obtain ⟨s', hrun, hk, hrep⟩ := h.fresh_granted hlast hlt hnone hgrant hgrant'
    refine ⟨s', (smalloc_none .malloc4 size h hr0 hlt hnone).trans hrun, ?_, hrep⟩
    rw [hk]
    change s.kernel.brk + metaSize + roundUp size = _
    omega

/-- One request that the smaller block fits, one for which the larger is cut,
and one that it has to grow for. -/
theorem best_fit_two_sizes : ∃ s, Rep .generous s twoSizes ∧
    (∃ s', smalloc .malloc4 .generous s 50 = .ok (4144, s') ∧ s'.kernel = s.kernel ∧
      Rep .generous s' [⟨4096, 104, false⟩, ⟨4248, 104, false⟩, ⟨4400, 1000, true⟩]) ∧
    (∃ s', smalloc .malloc4 .generous s 500 = .ok (4448, s') ∧ s'.kernel = s.kernel ∧
      Rep .generous s' [⟨4096, 104, true⟩, ⟨4248, 104, false⟩, ⟨4400, 504, false⟩,
        ⟨4952, 448, true⟩]) ∧
    ∃ s', smalloc .malloc4 .generous s 2000 = .ok (4448, s') ∧ s'.kernel.brk = 6448 ∧
      Rep .generous s' [⟨4096, 104, true⟩, ⟨4248, 104, false⟩, ⟨4400, 2000, false⟩] := by
  have h50 : roundUp 50 = 56 := by decide +kernel
  have h500 : roundUp 500 = 504 := by decide +kernel
  have h2000 : roundUp 2000 = 2000 := by decide +kernel
  obtain ⟨s, hbrk, h⟩ := exists_two_sizes
  refine ⟨s, h, ?_, ?_, ?_⟩
  · obtain ⟨L, b, R, s', hB, hbest, hrun, hk, hrep⟩ := (@best_fit _ _ _ 50 h
      (by rw [h50]; decide) (by rw [h50]; decide)).1 ⟨⟨4096, 104, true⟩, by decide, rfl, by
        rw [h50]; decide⟩
    obtain ⟨rfl, rfl, rfl⟩ | ⟨rfl, rfl, rfl⟩ := twoSizes_split hB hbest.free
    · rw [h50] at hrep
      exact ⟨s', hrun, hk, hrep⟩
    · have hleast := hbest.least ⟨4096, 104, true⟩ (by decide) rfl (by rw [h50]; decide)
      exact absurd hleast (by decide)
  · obtain ⟨L, b, R, s', hB, hbest, hrun, hk, hrep⟩ := (@best_fit _ _ _ 500 h
      (by rw [h500]; decide) (by rw [h500]; decide)).1 ⟨⟨4400, 1000, true⟩, by decide, rfl, by
        rw [h500]; decide⟩
    rw [h500] at hbest hrep
    obtain ⟨rfl, rfl, rfl⟩ | ⟨rfl, rfl, rfl⟩ := twoSizes_split hB hbest.free
    · exact absurd hbest.fits (by decide)
    · exact ⟨s', hrun, hk, hrep⟩
  · have hnone : ∀ c ∈ twoSizes, c.free = true → c.size < roundUp 2000 := by
      rw [h2000]
      decide
    obtain ⟨-, -, hgrow⟩ := ((@best_fit _ _ _ 2000 h (by rw [h2000]; decide)
      (by rw [h2000]; decide)).2 hnone).1 [⟨4096, 104, true⟩, ⟨4248, 104, false⟩]
        ⟨4400, 1000, true⟩ rfl rfl
    rw [h2000] at hgrow
    obtain ⟨s', hrun, hk, hrep⟩ := hgrow (granted_generous (by omega) (by omega))
    rw [hbrk] at hk
    exact ⟨s', hrun, hk, hrep⟩

end OsAllHw.Malloc
