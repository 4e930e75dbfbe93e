import OsAllHw.Malloc.BestFit

/-!
# Freeing undoes allocating

A request served from the histogram and released at once leaves no trace:
either the block was handed out whole and goes back, or it was cut and the
two parts are merged again by the first of the two merges of `sfree`. Its
left neighbour is in use, since no two free blocks are adjacent, so the
second merge does nothing.
-/

namespace OsAllHw.Malloc

open Lib

/-- What the calls report and the lists hold is as it was. -/
structure Restored (os : Os) (B : List Block) (s s' : Heap) : Prop where
  list : Core os s' B
  buckets : ∀ i, ∃ l l', Bucket s (freeHeads B) i l ∧ Bucket s' (freeHeads B) i l' ∧ l.Perm l'
  num : s'.numOfMetadatas = s.numOfMetadatas
  freeBlocks : numFreeBlocks s' = numFreeBlocks s
  freeBytes : numFreeBytes s' = numFreeBytes s
  allocatedBlocks : numAllocatedBlocks s' = numAllocatedBlocks s
  allocatedBytes : numAllocatedBytes s' = numAllocatedBytes s
  metaBytes : numMetaDataBytes s' = numMetaDataBytes s

section Restored

variable {os : Os} {s s' : Heap} {L R B : List Block} {b m : Block} {r : Nat}

/-- Buckets of two heaps with the same list hold the same blocks. -/
theorem Rep.buckets_perm (h : Rep os s B) (h' : Rep os s' B) (i : Fin 128) :
    ∃ l l', Bucket s (freeHeads B) i l ∧ Bucket s' (freeHeads B) i l' ∧ l.Perm l' := by
  obtain ⟨l, hl⟩ := h.binned i
  obtain ⟨l', hl'⟩ := h'.binned i
  refine ⟨l, l', hl, hl', (List.perm_ext_iff_of_nodup hl.nodup hl'.nodup).mpr fun a => ?_⟩
  rw [hl.mem, hl'.mem]
  refine and_congr_right fun ha => ?_
  obtain ⟨b, hb, -, rfl⟩ := ha
  rw [h.core.size b hb, h'.core.size b hb]

/-- The statistics are functions of the list and three counters. -/
theorem Rep.restored (h : Rep os s B) (h' : Rep os s' B)
    (hblocks : s'.mmapedBlocksNum = s.mmapedBlocksNum)
    (hbytes : s'.mmapedBytesNum = s.mmapedBytesNum)
    (hnum : s'.numOfMetadatas = s.numOfMetadatas) : Restored os B s s' := by
  have hbound : ∀ b ∈ B, b.free.toNat ≤ b.bytes := fun b _ =>
    b.free.toNat_le.trans (Nat.le_add_right_of_le (by decide))
  have hboundBytes : ∀ b ∈ B, (if b.free then b.size else 0) ≤ b.bytes := by
    intro b _
    split
    · exact Nat.le_add_left _ _
    · exact Nat.zero_le _
  have hfreeBlocks : ∀ t, Core os t B → numFreeBlocks t = .ok (B.map fun b => b.free.toNat).sum :=
    fun t ht => ht.walk (fun b hb => by rw [ht.flag b hb]) hbound
  have hfreeBytes : ∀ t, Core os t B →
      numFreeBytes t = .ok (B.map fun b => if b.free then b.size else 0).sum :=
    fun t ht => ht.walk (fun b hb => by rw [ht.flag b hb, ht.size b hb]) hboundBytes
  have hcount : ∀ t, Core os t B →
      walkAllList t (fun _ => 1) walkFuel t.allListHead 0 = .ok (B.map fun _ => 1).sum :=
    fun t ht => ht.walk (fun _ _ => rfl) fun b _ => Nat.le_add_right_of_le (by decide)
  have hsizes : ∀ t, Core os t B →
      walkAllList t (t.get .size) walkFuel t.allListHead 0 = .ok (B.map Block.size).sum :=
    fun t ht => ht.walk ht.size fun b _ => Nat.le_add_left _ _
  refine ⟨h'.core, h.buckets_perm h', hnum, ?_, ?_, ?_, ?_, ?_⟩
  · rw [hfreeBlocks s' h'.core, hfreeBlocks s h.core]
  · rw [hfreeBytes s' h'.core, hfreeBytes s h.core]
  · rw [numAllocatedBlocks, numAllocatedBlocks, hcount s' h'.core, hcount s h.core, hblocks]
  · rw [numAllocatedBytes, numAllocatedBytes, hsizes s' h'.core, hsizes s h.core, hbytes]
  · rw [numMetaDataBytes, numMetaDataBytes, hnum]

/-- Releasing behind a block in use. -/
theorem freed_of_left_used (hL : freeLastBytes L = 0) :
    freed L m R = L ++ ⟨m.addr, m.size + freeHeadBytes R, true⟩ :: dropFreeHead R := by
  rcases List.eq_nil_or_concat L with rfl | ⟨L, a, rfl⟩
  · simp [freed]
  · rw [List.concat_eq_append] at *
    have ha := freeLastBytes_eq_zero.mp hL a (by simp)
    simp [freed, ha]

/-- **The merge takes the cut back.** -/
theorem freed_cut (r : Nat) (hco : Coalesced (L ++ b :: R)) (hb : b.free = true) :
    ∃ m R', L ++ cut b r ++ R = L ++ m :: R' ∧ m.addr = b.addr ∧ m.free = false ∧
      freeLastBytes L = 0 ∧ m.size + freeHeadBytes R' = b.size ∧ freed L m R' = L ++ b :: R := by
  obtain ⟨-, -, hfree⟩ := hco.split_at
  obtain ⟨hl, hrz⟩ := hfree hb
  have hbeta : (⟨b.addr, b.size, true⟩ : Block) = b := by rw [← hb]
  by_cases hsmall : b.size < r + (128 + metaSize)
  · -- handed out whole
    have hdrop : dropFreeHead R = R := by
      cases R with
      | nil => rfl
      | cons c R => simp [dropFreeHead, freeHeadBytes_eq_zero.mp hrz c rfl]
    refine ⟨{ b with free := false }, R, cut_whole hsmall, rfl, rfl, hl, ?_, ?_⟩
    · rw [hrz, Nat.add_zero]
    · rw [freed_of_left_used hl, hrz, hdrop, Nat.add_zero, hbeta]
  · have hsize : r + (b.size - r - metaSize + metaSize) = b.size := by omega
    refine ⟨⟨b.addr, r, false⟩, ⟨b.addr + metaSize + r, b.size - r - metaSize, true⟩ :: R,
      cut_split (by omega), rfl, rfl, hl, ?_, ?_⟩
    · simpa [freeHeadBytes] using hsize
    · rw [freed_of_left_used hl]
      simp only [freeHeadBytes, dropFreeHead, if_true, hsize, hbeta]

end Restored

/-- **`sfree` undoes `smalloc`** wherever the request was served from the
histogram, that is by a free block of the heap. -/
theorem sfree_undoes_smalloc {os : Os} {s : Heap} {B : List Block} {size : Nat} (h : Rep os s B)
    (hco : Coalesced B) (hnum : IsWord s.numOfMetadatas) (h0 : 0 < roundUp size)
    (hlt : roundUp size < mmapSize) (hfit : ∃ c ∈ B, c.free = true ∧ roundUp size ≤ c.size) :
    ∃ p s₁ s₂, smalloc .malloc4 os s size = .ok (p, s₁) ∧ p ≠ 0 ∧
      (∃ b ∈ B, b.free = true ∧ roundUp size ≤ b.size ∧ p = b.payload) ∧
      s₁.kernel = s.kernel ∧ sfree s₁ p = .ok s₂ ∧ Restored os B s s₂ := by
  obtain ⟨L, b, R, s₁, rfl, hbest, hrun, hrep, -, htame, hnum₁⟩ :=
    smalloc_found .malloc4 size h (Nat.ne_of_gt h0) hlt hfit
  obtain ⟨m, R', hB, haddr, hmf, hl, hsize, hfreed⟩ := freed_cut (roundUp size) hco hbest.free
  have hsmall := h.small b (by simp)
  have hround : Version.malloc4.round size = roundUp size := rfl
  rw [hround] at hrep hnum₁
  rw [hB] at hrep
  obtain ⟨s₂, hrun₂, hrep₂, hrel, -⟩ := sfree_releases hrep hmf (by omega)
  rw [hfreed] at hrep₂ hrel
  have hpay : m.payload = b.payload := payload_inj.mpr haddr
  rw [hpay] at hrun₂
  have hserved : ∃ c ∈ L ++ b :: R, c.free = true ∧ roundUp size ≤ c.size ∧
      b.payload = c.payload := ⟨b, by simp, hbest.free, hbest.fits, rfl⟩
  refine ⟨b.payload, s₁, s₂, hrun, payload_ne_zero b, hserved, htame.kernel, hrun₂,
    h.restored hrep₂ ?_ ?_ ?_⟩
  · rw [hrel.tame.blocksNum, htame.blocksNum]
  · rw [hrel.tame.bytesNum, htame.bytesNum]
  · -- one header more for a cut, one less for the merge
    have hlen := congrArg List.length hB
    simp only [List.length_append, List.length_cons] at hlen
    have hcut : (cut b (roundUp size)).length = 1 ∨ (cut b (roundUp size)).length = 2 := by
      unfold cut
      split
      · exact .inl rfl
      · exact .inr rfl
    have hdiff : (L ++ m :: R').length - (L ++ b :: R).length =
        (cut b (roundUp size)).length - 1 := by
      simp only [List.length_append, List.length_cons]
      omega
    rw [hrel.num, hdiff]
    rcases hcut with hone | htwo
    · rw [hone, Nat.sub_self, decremented_zero]
      omega
    · have hsucc : s₁.numOfMetadatas = s.numOfMetadatas + 1 := by omega
      rw [htwo, hsucc]
      refine (decremented_one _).trans ?_
      unfold IsWord at hnum
      unfold subT
      omega

/-- A free block of 104 bytes in front of one in use. -/
theorem sfree_undoes_smalloc_front : ∃ s, Rep .generous s [⟨4096, 104, true⟩, ⟨4248, 104, false⟩] ∧
    ∃ p s₁ s₂, smalloc .malloc4 .generous s 50 = .ok (p, s₁) ∧ p ≠ 0 ∧
      (∃ b ∈ [(⟨4096, 104, true⟩ : Block), ⟨4248, 104, false⟩], b.free = true ∧
        roundUp 50 ≤ b.size ∧ p = b.payload) ∧
      s₁.kernel = s.kernel ∧ sfree s₁ p = .ok s₂ ∧
      Restored .generous [⟨4096, 104, true⟩, ⟨4248, 104, false⟩] s s₂ := by
  obtain ⟨s, -, h⟩ := exists_two_blocks
  have h' : Rep .generous s ([] ++ ⟨4096, 104, false⟩ :: [⟨4248, 104, false⟩]) := h
  obtain ⟨t, -, ht, -⟩ := (sfree_heap h' rfl).1 (by decide)
  have hround : roundUp 50 = 56 := by decide +kernel
  exact ⟨{ t with numOfMetadatas := 2 }, ht.setNum 2, sfree_undoes_smalloc (ht.setNum 2)
    (by simp [Coalesced]) (show IsWord 2 by decide) (by rw [hround]; decide)
    (by rw [hround]; decide) ⟨_, List.mem_cons_self, rfl, by rw [hround]; decide⟩⟩

end OsAllHw.Malloc
