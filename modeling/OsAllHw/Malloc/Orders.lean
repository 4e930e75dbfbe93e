import OsAllHw.Malloc.BestFit

/-!
# Releasing in any order

`coalesce` merges every run of free neighbours; `mark S B` marks the blocks
of `S` free. Whatever the order and the repetitions in which the pointers of
`S` are released, the list ends as `coalesce (mark S B)`. One call moves one
block from used to free inside that normal form; a repeated call finds the
flag still set, in a header that may lie stale inside a merged block.
-/

namespace OsAllHw.Malloc

open Lib

/-- Every maximal run of free blocks becomes one. -/
def coalesce : List Block → List Block
  | [] => []
  | b :: B =>
      if b.free then
        ⟨b.addr, b.size + freeHeadBytes (coalesce B), true⟩ :: dropFreeHead (coalesce B)
      else b :: coalesce B

/-- The blocks whose payload is in `S` marked free. -/
def mark (S : Finset Nat) (B : List Block) : List Block :=
  B.map fun b => if b.payload ∈ S then { b with free := true } else b

/-- `sfree(p)` for each `p` in turn. -/
def sfreeAll (s : Heap) : List Nat → Except Fault Heap
  | [] => .ok s
  | p :: ps => do
      let s ← sfree s p
      sfreeAll s ps

/-! ## The normal form -/

section Coalesce

variable {L R B X : List Block} {a b m : Block} {S T : Finset Nat} {p n : Nat}

theorem coalesce_used (hb : b.free = false) : coalesce (b :: B) = b :: coalesce B := by
  simp [coalesce, hb]

theorem coalesce_free (hb : b.free = true) : coalesce (b :: B) =
    ⟨b.addr, b.size + freeHeadBytes (coalesce B), true⟩ :: dropFreeHead (coalesce B) := by
  simp [coalesce, hb]

/-- Releasing next to a longer list: its first block is not concerned. -/
theorem freed_cons (h : a.free = false ∨ X ≠ []) : freed (a :: X) m R = a :: freed X m R := by
  rcases List.eq_nil_or_concat X with rfl | ⟨X, z, rfl⟩
  · have ha := h.resolve_right fun hne => hne rfl
    have hone := freeLastBytes_concat (L := []) (a := a)
    simp [freed, freeLastBytes, freeHeadBytes, dropFreeLast, dropFreeHead, joinAddr, ha]
  · have hcons : a :: (X ++ [z]) = (a :: X) ++ [z] := rfl
    rw [List.concat_eq_append, hcons]
    simp only [freed, freeLastBytes_concat, dropFreeLast_concat, joinAddr_concat]
    split <;> rfl

theorem freed_singleton (ha : a.free = true) : freed [a] m R =
    ⟨a.addr, a.size + (m.size + freeHeadBytes R + metaSize), true⟩ :: dropFreeHead R := by
  simp only [freed, dropFreeLast, dropFreeHead, joinAddr, freeLastBytes, freeHeadBytes, ha,
    List.reverse_singleton, if_true, List.reverse_nil, List.nil_append, List.cons.injEq,
    Block.mk.injEq, true_and, and_true]
  omega

/-- **One release in the normal form.** -/
theorem coalesce_release (L R : List Block) (m : Block) :
    coalesce (L ++ { m with free := true } :: R) = freed (coalesce L) m (coalesce R) := by
  induction L with
  | nil =>
      rw [List.nil_append, coalesce_free rfl]
      simp [coalesce, freed]
  | cons a L ih =>
      rw [List.cons_append]
      cases ha : a.free with
      | false => rw [coalesce_used ha, coalesce_used ha, ih, freed_cons (.inl ha)]
      | true =>
          rw [coalesce_free ha, coalesce_free ha, ih]
          -- what `a` absorbs is the first block of the rest, if that is free
          cases hX : coalesce L with
          | nil =>
              have hnil : freeHeadBytes [] = 0 ∧ dropFreeHead [] = [] := ⟨rfl, rfl⟩
              rw [hnil.1, hnil.2, freed_singleton rfl]
              simp [freed, freeHeadBytes, dropFreeHead]
          | cons x X =>
              cases hx : x.free with
              | false =>
                  have hxX : freeHeadBytes (x :: X) = 0 ∧ dropFreeHead (x :: X) = x :: X := by
                    simp [freeHeadBytes, dropFreeHead, hx]
                  rw [hxX.1, hxX.2, freed_cons (.inr (List.cons_ne_nil x X)),
                    freed_cons (.inl hx)]
                  simp [freeHeadBytes, dropFreeHead, hx]
              | true =>
                  have hxX : freeHeadBytes (x :: X) = x.size + metaSize ∧
                      dropFreeHead (x :: X) = X := by
                    simp [freeHeadBytes, dropFreeHead, hx]
                  rw [hxX.1, hxX.2]
                  by_cases hnil : X = []
                  · subst hnil
                    rw [freed_singleton hx, freed_singleton rfl]
                    simp only [freeHeadBytes, dropFreeHead, if_true, List.cons.injEq,
                      Block.mk.injEq, true_and, and_true]
                    omega
                  · rw [freed_cons (.inr hnil), freed_cons (.inr hnil)]
                    simp [freeHeadBytes, dropFreeHead, hx]

/-- A used block stays where it is. -/
theorem coalesce_around (L R : List Block) (hm : m.free = false) :
    coalesce (L ++ m :: R) = coalesce L ++ m :: coalesce R := by
  induction L with
  | nil => exact coalesce_used hm
  | cons a L ih =>
      rw [List.cons_append]
      cases ha : a.free with
      | false => rw [coalesce_used ha, coalesce_used ha, ih, List.cons_append]
      | true =>
          rw [coalesce_free ha, coalesce_free ha, ih, List.cons_append]
          cases coalesce L with
          | nil => simp [freeHeadBytes, dropFreeHead, hm]
          | cons x X =>
              simp only [List.cons_append, freeHeadBytes, dropFreeHead]
              split <;> rfl

/-- A coalesced list is its own normal form. -/
theorem Coalesced.coalesce_eq (h : Coalesced B) : coalesce B = B := by
  induction B with
  | nil => rfl
  | cons b B ih =>
      obtain ⟨hB, hb⟩ := coalesced_cons.mp h
      cases hbf : b.free with
      | false => rw [coalesce_used hbf, ih hB]
      | true =>
          have hzero := hb.resolve_left (by simp [hbf])
          have hdrop : dropFreeHead B = B := by
            cases B with
            | nil => rfl
            | cons c B => simp [dropFreeHead, freeHeadBytes_eq_zero.mp hzero c rfl]
          have hbeta : (⟨b.addr, b.size + 0, true⟩ : Block) = b := by rw [← hbf]; rfl
          rw [coalesce_free hbf, ih hB, hzero, hdrop, hbeta]

theorem dropFreeHead_subset : ∀ c ∈ dropFreeHead B, c ∈ B := by
  intro c hc
  cases B with
  | nil => exact hc
  | cons b B =>
      rw [dropFreeHead] at hc
      split at hc
      · exact List.mem_cons_of_mem _ hc
      · exact hc

theorem heads_coalesce : heads (coalesce B) ⊆ heads B := by
  induction B with
  | nil => exact subset_rfl
  | cons b B ih =>
      intro a ha
      rw [mem_heads_cons]
      cases hb : b.free with
      | false =>
          rw [coalesce_used hb, mem_heads_cons] at ha
          exact ha.imp_right fun h => ih h
      | true =>
          rw [coalesce_free hb, mem_heads_cons] at ha
          refine ha.imp_right ?_
          rintro ⟨c, hc, rfl⟩
          exact ih ⟨c, dropFreeHead_subset c hc, rfl⟩

theorem length_coalesce : (coalesce B).length ≤ B.length := by
  induction B with
  | nil => exact le_rfl
  | cons b B ih =>
      have hdrop : (dropFreeHead (coalesce B)).length ≤ (coalesce B).length := by
        cases coalesce B with
        | nil => exact le_rfl
        | cons c C =>
            rw [dropFreeHead]
            split
            · exact Nat.le_succ _
            · exact le_rfl
      cases hb : b.free with
      | false => simpa [coalesce_used hb] using ih
      | true =>
          simp only [coalesce_free hb, List.length_cons]
          omega

/-! ## Marking -/

theorem mark_empty (B : List Block) : mark ∅ B = B := by simp [mark]

theorem mark_append (S : Finset Nat) (L R : List Block) :
    mark S (L ++ R) = mark S L ++ mark S R := List.map_append

theorem mark_insert_of_notMem (h : ∀ b ∈ B, b.payload ≠ p) : mark (insert p S) B = mark S B := by
  refine List.map_congr_left fun b hb => ?_
  simp [h b hb]

theorem heads_mark (S : Finset Nat) (B : List Block) : heads (mark S B) = heads B := by
  ext a
  have haddr : ∀ b : Block,
      (if b.payload ∈ S then { b with free := true } else b).addr = b.addr := by
    intro b
    split <;> rfl
  rw [← mem_map_addr, ← mem_map_addr, mark, List.map_map]
  exact iff_of_eq (congrArg _ (List.map_congr_left fun b _ => haddr b))

/-- Marking more blocks free only makes the blocks of the normal form larger. -/
theorem coalesce_mark_mono (hST : S ⊆ T) (h : ∀ c ∈ coalesce (mark T B), c.size < n) :
    freeHeadBytes (coalesce (mark S B)) ≤ freeHeadBytes (coalesce (mark T B)) ∧
      ∀ c ∈ coalesce (mark S B), c.size < n := by
  induction B with
  | nil => exact ⟨le_rfl, h⟩
  | cons b B ih =>
      have hmark : ∀ U : Finset Nat, mark U (b :: B) =
          (if b.payload ∈ U then { b with free := true } else b) :: mark U B := fun _ => rfl
      rw [hmark] at h ⊢
      rw [hmark]
      obtain ⟨bT, hbT⟩ : ∃ c, c = if b.payload ∈ T then { b with free := true } else b := ⟨_, rfl⟩
      obtain ⟨bS, hbS⟩ : ∃ c, c = if b.payload ∈ S then { b with free := true } else b := ⟨_, rfl⟩
      have hsize : bS.size = bT.size := by rw [hbT, hbS]; split <;> split <;> rfl
      have hfree : bS.free = true → bT.free = true := by
        rw [hbT, hbS]
        by_cases hpS : b.payload ∈ S
        · simp [hpS, hST hpS]
        · by_cases hpT : b.payload ∈ T <;> simp [hpS, hpT]
      rw [← hbT] at h ⊢
      rw [← hbS]
      -- the rest of the list fits as well
      have hrest : ∀ c ∈ coalesce (mark T B), c.size < n := by
        intro c hc
        cases hbf : bT.free with
        | false => exact h c (by rw [coalesce_used hbf]; exact List.mem_cons_of_mem _ hc)
        | true =>
            rw [coalesce_free hbf] at h
            cases hC : coalesce (mark T B) with
            | nil => rw [hC] at hc; cases hc
            | cons d D =>
                rw [hC] at h hc
                have hhead := h _ List.mem_cons_self
                rcases List.mem_cons.mp hc with rfl | hc
                · cases hcf : c.free with
                  | true =>
                      simp only [freeHeadBytes, hcf, if_true] at hhead
                      omega
                  | false =>
                      exact h c (List.mem_cons_of_mem _ (by simp [dropFreeHead, hcf]))
                · refine h c (List.mem_cons_of_mem _ ?_)
                  rw [dropFreeHead]
                  split
                  · exact hc
                  · exact List.mem_cons_of_mem _ hc
      obtain ⟨hle, hsmall⟩ := ih hrest
      cases hSf : bS.free with
      | false =>
          rw [coalesce_used hSf]
          refine ⟨by simp [freeHeadBytes, hSf], fun c hc => ?_⟩
          rcases List.mem_cons.mp hc with rfl | hc
          · -- a block that stays used is no larger than what it becomes
            have hT : ∃ d ∈ coalesce (bT :: mark T B), bT.size ≤ d.size := by
              cases hTf : bT.free with
              | false => exact ⟨bT, by rw [coalesce_used hTf]; simp, le_rfl⟩
              | true => exact ⟨_, by rw [coalesce_free hTf]; exact List.mem_cons_self,
                  Nat.le_add_right _ _⟩
            obtain ⟨d, hd, hbd⟩ := hT
            rw [hsize]
            exact hbd.trans_lt (h d hd)
          · exact hsmall c hc
      | true =>
          have hTf := hfree hSf
          rw [coalesce_free hSf, coalesce_free hTf]
          rw [coalesce_free hTf] at h
          have hhead := h _ List.mem_cons_self
          dsimp only at hhead
          refine ⟨?_, fun c hc => ?_⟩
          · change bS.size + freeHeadBytes (coalesce (mark S B)) + metaSize ≤
              bT.size + freeHeadBytes (coalesce (mark T B)) + metaSize
            omega
          rcases List.mem_cons.mp hc with rfl | hc
          · dsimp only
            omega
          · exact hsmall c (dropFreeHead_subset c hc)

end Coalesce

/-! ## The calls -/

section Calls

variable {os : Os} {s s₀ : Heap} {B : List Block} {S T : Finset Nat} {p : Nat}

/-- After the pointers of `T` have been released, in some order: the list is
in normal form, each header released says so, and the counter went down by
one for each merge. -/
structure Released (os : Os) (s₀ : Heap) (B : List Block) (T : Finset Nat) (s : Heap) : Prop where
  rep : Rep os s (coalesce (mark T B))
  flags : ∀ b ∈ B, b.payload ∈ T → s.isFree b.addr = true
  num : s.numOfMetadatas =
    decremented (B.length - (coalesce (mark T B)).length) s₀.numOfMetadatas

theorem Released.start (h : Rep os s B) (hco : Coalesced B) : Released os s B ∅ s where
  rep := by rwa [mark_empty, hco.coalesce_eq]
  flags b _ hb := absurd hb (Finset.notMem_empty _)
  num := by rw [mark_empty, hco.coalesce_eq, Nat.sub_self, decremented_zero]

/-- One more call. -/
theorem Released.sfree (h : Released os s₀ B T s) (hB : Core os s₀ B) (hp : p ∈ usedPayloads B)
    (hfit : ∀ c ∈ coalesce (mark (insert p T) B), c.size < mmapSize) :
    ∃ s', Malloc.sfree s p = .ok s' ∧ Released os s₀ B (insert p T) s' := by
  obtain ⟨m, hm, hmf, rfl⟩ := hp
  by_cases hpT : m.payload ∈ T
  · -- released before: the flag is still there
    refine ⟨s, sfree_again (payload_ne_zero m) ?_, ?_⟩
    · rw [payload_sub]
      exact h.flags m hm hpT
    · rwa [Finset.insert_eq_self.mpr hpT]
  · obtain ⟨L, R, rfl⟩ := List.append_of_mem hm
    obtain ⟨hnL, hnR⟩ := hB.layout.addr_notMem
    have hpL : ∀ b ∈ L, b.payload ≠ m.payload := fun b hb he => hnL ⟨b, hb, payload_inj.mp he⟩
    have hpR : ∀ b ∈ R, b.payload ≠ m.payload := fun b hb he => hnR ⟨b, hb, payload_inj.mp he⟩
    have hbefore : mark T (L ++ m :: R) = mark T L ++ m :: mark T R := by
      rw [mark_append]
      simp [mark, hpT]
    have hafter : mark (insert m.payload T) (L ++ m :: R) =
        mark T L ++ { m with free := true } :: mark T R := by
      rw [mark_append, mark_insert_of_notMem hpL, ← mark_insert_of_notMem hpR]
      simp [mark]
    have hrep := h.rep
    have hnum := h.num
    rw [hbefore, coalesce_around _ _ hmf] at hrep hnum
    rw [hafter, coalesce_release] at hfit
    have hjoin := hfit _ (List.mem_append_right _ List.mem_cons_self)
    obtain ⟨s', hrun, hrep', hrel, hflag⟩ := sfree_releases hrep hmf hjoin
    have hheads : heads (coalesce (mark T L) ++ m :: coalesce (mark T R)) ⊆
        heads (L ++ m :: R) := by
      rw [← coalesce_around _ _ hmf, ← hbefore, ← heads_mark T (L ++ m :: R)]
      exact heads_coalesce
    refine ⟨s', hrun, ?_, fun b hb hbT => ?_, ?_⟩
    · rwa [hafter, coalesce_release]
    · rcases Finset.mem_insert.mp hbT with he | hbT
      · rw [payload_inj.mp he]
        exact hflag
      · exact hrel.flag_of hB.headers hheads (mem_heads hb) (h.flags b hb hbT)
    · have h1 := hrel.shorter
      have h2 : (coalesce (mark T L) ++ m :: coalesce (mark T R)).length ≤
          (L ++ m :: R).length := by
        rw [← coalesce_around _ _ hmf, ← hbefore]
        exact length_coalesce.trans (by simp [mark])
      rw [hafter, coalesce_release, hrel.num, hnum, ← decremented_add]
      congr 1
      omega

/-- A sequence of calls. -/
theorem Released.sfreeAll (hB : Core os s₀ B) (ps : List Nat) (h : Released os s₀ B T s)
    (hp : ∀ p ∈ ps, p ∈ usedPayloads B)
    (hfit : ∀ c ∈ coalesce (mark (ps.toFinset ∪ T) B), c.size < mmapSize) :
    ∃ s', Malloc.sfreeAll s ps = .ok s' ∧ Released os s₀ B (ps.toFinset ∪ T) s' := by
  induction ps generalizing s T with
  | nil => exact ⟨s, rfl, by simpa using h⟩
  | cons p ps ih =>
      have hunion : (p :: ps).toFinset ∪ T = ps.toFinset ∪ insert p T := by
        rw [List.toFinset_cons, Finset.insert_union, Finset.union_insert]
      rw [hunion] at hfit ⊢
      obtain ⟨s1, hrun, h1⟩ := h.sfree hB (hp p (by simp))
        (coalesce_mark_mono Finset.subset_union_right hfit).2
      obtain ⟨s2, hrun2, h2⟩ := ih h1 (fun q hq => hp q (by simp [hq])) hfit
      exact ⟨s2, by rw [Malloc.sfreeAll, hrun]; exact hrun2, h2⟩

end Calls

/-- **Any order, any repetition.** Two sequences of calls that mention
exactly the pointers of `S` both end with the list `S` marked free and
coalesced, and with the same counter. -/
theorem sfree_any_order {os : Os} {s : Heap} {B : List Block} (h : Rep os s B)
    (hco : Coalesced B) (S : Finset Nat) (hS : ∀ p ∈ S, p ∈ usedPayloads B)
    (hfit : ∀ c ∈ coalesce (mark S B), c.size < mmapSize) (ps qs : List Nat)
    (hps : ∀ p, p ∈ ps ↔ p ∈ S) (hqs : ∀ q, q ∈ qs ↔ q ∈ S) :
    ∃ s₁ s₂, sfreeAll s ps = .ok s₁ ∧ sfreeAll s qs = .ok s₂ ∧
      Rep os s₁ (coalesce (mark S B)) ∧ Rep os s₂ (coalesce (mark S B)) ∧
      s₁.numOfMetadatas = s₂.numOfMetadatas := by
  have hone : ∀ l : List Nat, (∀ p, p ∈ l ↔ p ∈ S) →
      ∃ s', sfreeAll s l = .ok s' ∧ Released os s B S s' := by
    intro l hl
    have hset : l.toFinset ∪ ∅ = S := by
      rw [Finset.union_empty]
      ext p
      rw [List.mem_toFinset, hl]
    have hrun := (Released.start h hco).sfreeAll h.core l (fun p hp => hS p ((hl p).mp hp))
    rw [hset] at hrun
    exact hrun hfit
  obtain ⟨s₁, hrun₁, h₁⟩ := hone ps hps
  obtain ⟨s₂, hrun₂, h₂⟩ := hone qs hqs
  exact ⟨s₁, s₂, hrun₁, hrun₂, h₁.rep, h₂.rep, h₁.num.trans h₂.num.symm⟩

/-- Two neighbours, the second released again last. -/
theorem sfree_any_order_two : ∃ s s₁ s₂, Rep .generous s twoBlocks ∧
    sfreeAll s [4144, 4296] = .ok s₁ ∧ sfreeAll s [4296, 4144, 4296] = .ok s₂ ∧
      Rep .generous s₁ [⟨4096, 256, true⟩] ∧ Rep .generous s₂ [⟨4096, 256, true⟩] ∧
      s₁.numOfMetadatas = s₂.numOfMetadatas := by
  obtain ⟨s, -, h⟩ := exists_two_blocks
  have hused : ∀ p ∈ ({4144, 4296} : Finset Nat), p ∈ usedPayloads twoBlocks := by
    intro p hp
    simp only [Finset.mem_insert, Finset.mem_singleton] at hp
    rcases hp with rfl | rfl
    · exact ⟨_, List.mem_cons_self, rfl, rfl⟩
    · exact ⟨_, List.mem_cons_of_mem _ List.mem_cons_self, rfl, rfl⟩
  obtain ⟨s₁, s₂, hrun₁, hrun₂, h₁, h₂, hnum⟩ := sfree_any_order h
    (by simp [twoBlocks, Coalesced]) {4144, 4296} hused (by decide) [4144, 4296]
    [4296, 4144, 4296] (by simp) (by simp)
  exact ⟨s, s₁, s₂, h, hrun₁, hrun₂, h₁, h₂, hnum⟩

end OsAllHw.Malloc
