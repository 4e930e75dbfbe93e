import OsAllHw.Malloc.Realloc

/-!
# Mapped blocks

Requests of `MMAP_SIZE` bytes and more get a mapping of their own, with the
same header in front. Such a block is on no list, and only its recorded
size tells `sfree` and `srealloc` what it is. `Mapped os s` says that the
kernel's mappings are exactly the blocks with such a size, that they keep
clear of the data segment and of each other, and that the two counters
agree with them.
-/

namespace OsAllHw.Malloc

open Lib

structure Mapped (os : Os) (s : Heap) : Prop where
  range : ∀ r ∈ s.kernel.maps, 0 < r.1 ∧ r.1 + r.2 < 2 ^ 64 ∧
    (r.1 + r.2 ≤ os.brk0 ∨ os.limit ≤ r.1)
  apart : s.kernel.maps.Pairwise Apart
  size : ∀ r ∈ s.kernel.maps, r.2 = s.get .size r.1 + metaSize ∧ mmapSize ≤ s.get .size r.1
  used : ∀ r ∈ s.kernel.maps, s.isFree r.1 = false
  blocksNum : s.mmapedBlocksNum = s.kernel.maps.length
  bytesNum : s.mmapedBytesNum = (s.kernel.maps.map fun r => s.get .size r.1).sum
  page : ∀ r ∈ s.kernel.maps, r.1 % 4096 = 0

section Mapped

variable {os : Os} {s s' : Heap} {B B' : List Block} {own : Set Nat} {r t : Nat × Nat} {n : Nat}

/-- Only the headers of the mappings matter. -/
theorem Mapped.congr (h : Mapped os s)
    (hmem : ∀ r ∈ s.kernel.maps, ∀ x, r.1 ≤ x → x < r.1 + metaSize → s'.mem x = s.mem x)
    (hmaps : s'.kernel.maps = s.kernel.maps)
    (hblocks : s'.mmapedBlocksNum = s.mmapedBlocksNum)
    (hbytes : s'.mmapedBytesNum = s.mmapedBytesNum) : Mapped os s' := by
  have hget : ∀ f, ∀ r ∈ s.kernel.maps, s'.get f r.1 = s.get f r.1 := by
    intro f r hr
    have := f.end_le
    exact Mem.loadLE_congr fun x h1 h2 => hmem r hr x (by omega) (by omega)
  refine ⟨?_, ?_, ?_, ?_, ?_, ?_, hmaps ▸ h.page⟩
  · rw [hmaps]; exact h.range
  · rw [hmaps]; exact h.apart
  · rw [hmaps]
    intro r hr
    rw [hget _ r hr]
    exact h.size r hr
  · rw [hmaps]
    intro r hr
    rw [Heap.isFree, hget _ r hr]
    exact h.used r hr
  · rw [hblocks, hmaps, h.blocksNum]
  · rw [hbytes, hmaps, h.bytesNum]
    exact congrArg List.sum (List.map_congr_left fun r hr => (hget _ r hr).symm)

/-- Calls that work on the data segment leave the mappings alone. -/
theorem Mapped.of_keeps (h : Mapped os s) (hk : Keeps os own B B' s s') : Mapped os s' := by
  refine h.congr (fun r hr x h1 h2 => hk.off x ?_) hk.maps hk.blocksNum hk.bytesNum
  have := (h.range r hr).2.2
  have := (h.size r hr).1
  omega

/-- Nothing the mappings hold is lost to a counter's width. -/
theorem Mapped.sum_lt (h : Mapped os s) : (s.kernel.maps.map Prod.snd).sum < 2 ^ 64 := by
  have hle := sum_lengths_le (n := 2 ^ 64 - 1) h.apart fun r hr => by
    have := (h.range r hr).2.1
    omega
  omega

theorem Mapped.lengths (h : Mapped os s) :
    (s.kernel.maps.map Prod.snd).sum = s.mmapedBytesNum + metaSize * s.kernel.maps.length := by
  have hlen : s.kernel.maps.map Prod.snd =
      s.kernel.maps.map fun r => s.get .size r.1 + metaSize :=
    List.map_congr_left fun r hr => (h.size r hr).1
  rw [hlen, List.sum_map_add, ← h.bytesNum, List.map_const', List.sum_replicate, smul_eq_mul,
    Nat.mul_comm]

theorem Mapped.bytesNum_lt (h : Mapped os s) : s.mmapedBytesNum < 2 ^ 64 := by
  have h1 := h.sum_lt
  rw [h.lengths] at h1
  omega

theorem Mapped.length_lt (h : Mapped os s) : s.kernel.maps.length < 2 ^ 60 := by
  have h1 := h.sum_lt
  rw [h.lengths] at h1
  have hms : metaSize * s.kernel.maps.length = 48 * s.kernel.maps.length := rfl
  omega

theorem Mapped.apart_of_ne (h : Mapped os s) (hr : r ∈ s.kernel.maps) (ht : t ∈ s.kernel.maps)
    (hne : r ≠ t) : Apart r t := by
  have : Std.Symm Apart := ⟨fun _ _ => Apart.symm⟩
  exact h.apart.forall hr ht hne

/-- A mapping is known by its address. -/
theorem Mapped.eq_of_addr (h : Mapped os s) (hr : r ∈ s.kernel.maps) (ht : t ∈ s.kernel.maps)
    (he : r.1 = t.1) : r = t := by
  by_contra hne
  have hap := h.apart_of_ne hr ht hne
  have h1 := (h.size r hr).1
  have h2 := (h.size t ht).1
  have hms : metaSize = 48 := rfl
  unfold Apart at hap
  omega

theorem Mapped.nodup (h : Mapped os s) : s.kernel.maps.Nodup := by
  refine h.apart.imp_of_mem fun {r t} hr ht hap he => ?_
  have h1 := (h.size r hr).1
  have hms : metaSize = 48 := rfl
  subst he
  unfold Apart at hap
  omega

/-- A mapped header is clear of the data segment. -/
theorem Mapped.header_off (h : Mapped os s) (hr : r ∈ s.kernel.maps) :
    r.1 + metaSize ≤ os.brk0 ∨ os.limit ≤ r.1 := by
  have h1 := (h.range r hr).2.2
  have h2 := (h.size r hr).1
  omega

/-- A state with the same data segment and the same list variables. -/
theorem Rep.congr_segment (h : Rep os s B)
    (hmem : ∀ x, os.brk0 ≤ x → x < os.limit → s'.mem x = s.mem x)
    (hbrk : s'.kernel.brk = s.kernel.brk) (hhead : s'.allListHead = s.allListHead)
    (hend : s'.allListEnd = s.allListEnd) (hfh : s'.freeHistogram = s.freeHistogram) :
    Rep os s' B := by
  have hget : ∀ f, ∀ a ∈ heads B, s'.get f a = s.get f a := by
    rintro f _ ⟨b, hb, rfl⟩
    have := f.end_le
    have h1 := (h.core.layout.bounds hb).1
    have h2 := (payload_le_fin b).trans ((h.core.fin_le hb).trans h.core.brk_le)
    unfold Block.payload at h2
    exact Mem.loadLE_congr fun x h3 h4 => hmem x (by omega) (by omega)
  refine ⟨⟨by rw [hbrk]; exact h.core.layout, by rw [hbrk]; exact h.core.brk_le,
    hhead.trans h.core.head, hend.trans h.core.last, ?_, ?_, ?_⟩, h.small, ?_⟩
  · exact h.core.linked.congr (fun a ha => hget _ a (mem_map_addr.mp ha))
      (fun a ha => hget _ a (mem_map_addr.mp ha))
  · exact fun b hb => (hget _ _ (mem_heads hb)).trans (h.core.size b hb)
  · intro b hb
    rw [Heap.isFree, hget _ _ (mem_heads hb)]
    exact h.core.flag b hb
  · exact h.binned.congr hfh fun a ha f _ => hget f a (freeHeads_subset ha)

/-- Writes to the payload of a mapping. -/
theorem Mapped.writeIn (h : Mapped os s) (hB : Rep os s B) (hr : r ∈ s.kernel.maps) {m : Mem}
    (hm : ∀ x, x < r.1 + metaSize ∨ r.1 + r.2 ≤ x → m x = s.mem x) :
    Rep os { s with mem := m } B ∧ Mapped os { s with mem := m } := by
  have hms : metaSize = 48 := rfl
  have hoff := (h.range r hr).2.2
  refine ⟨hB.congr_segment (fun x h1 h2 => hm x (by omega)) rfl rfl rfl rfl, ?_⟩
  refine h.congr (fun t ht x h1 h2 => hm x ?_) rfl rfl rfl
  by_cases htr : t = r
  · subst htr
    exact .inl h2
  · have hap := h.apart_of_ne ht hr htr
    have := (h.size t ht).1
    unfold Apart at hap
    omega

/-- One more mapping. -/
theorem Mapped.insert (h : Mapped os s) {a : Nat} (hpage : a % 4096 = 0) (h0 : 0 < a)
    (hn : mmapSize ≤ n)
    (hword : a + (n + metaSize) < 2 ^ 64)
    (hoff : a + (n + metaSize) ≤ os.brk0 ∨ os.limit ≤ a)
    (hclear : ∀ r ∈ s.kernel.maps, Apart (a, n + metaSize) r)
    (hmaps : s'.kernel.maps = (a, n + metaSize) :: s.kernel.maps)
    (hmem : ∀ x, x < a ∨ a + (n + metaSize) ≤ x → s'.mem x = s.mem x)
    (hsize : s'.get .size a = n) (hused : s'.isFree a = false)
    (hblocks : s'.mmapedBlocksNum = s.mmapedBlocksNum + 1)
    (hbytes : s'.mmapedBytesNum = sizeT (s.mmapedBytesNum + n)) : Mapped os s' := by
  have hget : ∀ f, ∀ r ∈ s.kernel.maps, s'.get f r.1 = s.get f r.1 := by
    intro f r hr
    have := f.end_le
    have hlen := (h.size r hr).1
    have hap : a + (n + metaSize) ≤ r.1 ∨ r.1 + r.2 ≤ a := hclear r hr
    exact Mem.loadLE_congr fun x h1 h2 => hmem x (by omega)
  have hrange : ∀ r ∈ (a, n + metaSize) :: s.kernel.maps, 0 < r.1 ∧ r.1 + r.2 < 2 ^ 64 ∧
      (r.1 + r.2 ≤ os.brk0 ∨ os.limit ≤ r.1) := by
    intro r hr
    rcases List.mem_cons.mp hr with rfl | hr
    · exact ⟨h0, hword, hoff⟩
    · exact h.range r hr
  have hapart : ((a, n + metaSize) :: s.kernel.maps).Pairwise Apart :=
    List.pairwise_cons.mpr ⟨hclear, h.apart⟩
  refine ⟨by rw [hmaps]; exact hrange, by rw [hmaps]; exact hapart, ?_, ?_, ?_, ?_, ?_⟩
  · rw [hmaps]
    intro r hr
    rcases List.mem_cons.mp hr with rfl | hr
    · rw [hsize]
      exact ⟨rfl, hn⟩
    · rw [hget _ r hr]
      exact h.size r hr
  · rw [hmaps]
    intro r hr
    rcases List.mem_cons.mp hr with rfl | hr
    · exact hused
    · rw [Heap.isFree, hget _ r hr]
      exact h.used r hr
  · rw [hblocks, hmaps, h.blocksNum, List.length_cons]
  · have hsum : (s.kernel.maps.map fun r => s'.get .size r.1).sum = s.mmapedBytesNum := by
      rw [h.bytesNum]
      exact congrArg List.sum (List.map_congr_left fun r hr => hget _ r hr)
    -- all mappings together, the new one included, fit the address space
    have hle := sum_lengths_le (n := 2 ^ 64 - 1) hapart fun r hr => by
      have := (hrange r hr).2.1
      omega
    rw [List.map_cons, List.sum_cons, h.lengths] at hle
    simp only at hle
    rw [hbytes, hmaps, List.map_cons, List.sum_cons, hsum, sizeT_of_lt (by omega), hsize,
      Nat.add_comm]
  · rw [hmaps]
    exact List.forall_mem_cons.mpr ⟨hpage, h.page⟩

theorem headers_singleton {a : Nat} (h0 : 0 < a) (hw : IsWord a) : Headers {a} := by
  refine ⟨?_, ?_, ?_⟩
  · rintro _ rfl; exact h0
  · rintro _ rfl; exact hw
  · rintro _ rfl _ rfl hne; exact absurd rfl hne

/-- The two writes to the header of a mapping. -/
theorem mapHeader_get {H : Set Nat} (hH : Headers H) {a : Nat} (ha : a ∈ H) (hn : IsWord n)
    (t : Heap) :
    ((t.put .isFree a 0).put .size a n).get .size a = n ∧
      ((t.put .isFree a 0).put .size a n).isFree a = false := by
  constructor
  · simp [get_putWord hH, ha, hn]
  · simp [Heap.isFree, get_putWord hH, get_putFlag hH, ha, hn]

/-- **`mmap_wrapper`**: refused, or a new mapping with its header. -/
theorem mmapWrapper_cases (h : Rep os s B) (hm : Mapped os s) (hn : mmapSize ≤ n)
    (hmax : n ≤ maxRequest) :
    (∃ k, (mmap os s.kernel (sizeT (n + metaSize))).1 = none ∧
      mmapWrapper os s n = (0, { s with kernel := k }) ∧ k.maps = s.kernel.maps ∧
      k.munmaps = s.kernel.munmaps ∧ k.brk = s.kernel.brk ∧
      k.sbrkFailures = s.kernel.sbrkFailures) ∨
    ∃ a s', (mmap os s.kernel (sizeT (n + metaSize))).1 ≠ none ∧
      mmapWrapper os s n = (a + metaSize, s') ∧ Rep os s' B ∧ Mapped os s' ∧
      s'.kernel = { s.kernel with
        mmapCalls := s.kernel.mmapCalls + 1, maps := (a, n + metaSize) :: s.kernel.maps } ∧
      s'.get .size a = n ∧ (∀ x, x < a ∨ a + (n + metaSize) ≤ x → s'.mem x = s.mem x) ∧
      s'.numOfMetadatas = s.numOfMetadatas + 1 := by
  have hms : metaSize = 48 := rfl
  have hmm : mmapSize = 131072 := rfl
  have hmr : maxRequest = 100000000 := rfl
  have hlen : sizeT (n + metaSize) = n + metaSize := sizeT_of_lt (by omega)
  rw [mmapWrapper, hlen]
  unfold mmap
  cases hat : os.mmapAt s.kernel.mmapCalls with
  | none => exact .inl ⟨_, rfl, rfl, rfl, rfl, rfl, rfl⟩
  | some a =>
      by_cases hfits : mmapFits os s.kernel a (n + metaSize)
      · have hfits' := hfits
        obtain ⟨hpage, ha0, haw, haoff, haapart⟩ := hfits'
        simp only [if_pos hfits]
        have hH : Headers {a} := headers_singleton ha0 (by unfold IsWord; omega)
        have hnw : IsWord n := by unfold IsWord; omega
        have hmem : ∀ x, x < a ∨ a + (n + metaSize) ≤ x →
            (((s.mem.fillBytes a (n + metaSize) 0).storeLE (a + Field.isFree.off)
              Field.isFree.width 0).storeLE (a + Field.size.off) Field.size.width n) x =
              s.mem x := by
          intro x hx
          have h1 := Field.isFree.end_le
          have h2 := Field.size.end_le
          rw [Mem.storeLE_of_outside _ (by omega), Mem.storeLE_of_outside _ (by omega),
            Mem.fillBytes_of_outside _ hx]
        refine .inr ⟨a, _, by simp, rfl, ?_, ?_, rfl, ?_, hmem, rfl⟩
        · exact h.congr_segment (fun x h1 h2 => hmem x (by omega)) rfl rfl rfl rfl
        · refine hm.insert hpage ha0 hn haw haoff haapart rfl hmem ?_ ?_ rfl rfl
          · exact (get_of_mem rfl _ _).trans (mapHeader_get hH rfl hnw _).1
          · rw [Heap.isFree, get_of_mem rfl]
            exact (mapHeader_get hH rfl hnw _).2
        · exact (get_of_mem rfl _ _).trans (mapHeader_get hH rfl hnw _).1
      · simp only [if_neg hfits]
        exact .inl ⟨_, trivial, rfl, rfl, rfl, rfl, rfl⟩

/-- **`srealloc`** to `MMAP_SIZE` bytes and more. -/
theorem srealloc_large {v : Version} {p size : Nat} (hp : p ≠ 0) (h0 : v.round size ≠ 0)
    (hmax : v.round size ≤ maxRequest) (hbig : mmapSize ≤ v.round size) {q : Nat}
    (hq : mmapWrapper os s (v.round size) = (q, s')) :
    srealloc v os s p size = if q = 0 then .ok (0, s') else
      (sfree (s'.memmove q p (min (s'.get .size (p - metaSize)) (v.round size))) p >>=
        fun s'' => .ok (q, s'')) := by
  have hmax' : ¬(v.round size = 0 ∨ maxRequest < v.round size) := by omega
  have hsmalloc : smalloc v os s (v.round size) = .ok (mmapWrapper os s (v.round size)) := by
    rw [smalloc]
    simp only [round_round, if_neg hmax', if_pos hbig]
    rfl
  rw [srealloc]
  simp only [if_neg hmax', if_neg hp, if_pos hbig]
  rw [hsmalloc, hq]
  rfl

theorem deallocateMmap_mem (s : Heap) (p : Nat) : (deallocateMmap s p).mem = s.mem := by
  rw [deallocateMmap]

theorem deallocateMmap_get (s : Heap) (p : Nat) (f : Field) (q : Nat) :
    (deallocateMmap s p).get f q = s.get f q :=
  get_of_mem (deallocateMmap_mem s p) f q

/-- `sfree` of a mapped block. -/
theorem sfree_mapped (h : Mapped os s) (hr : r ∈ s.kernel.maps) :
    sfree s (r.1 + metaSize) = .ok (deallocateMmap s r.1) := by
  have hne : r.1 + metaSize ≠ 0 := Nat.succ_ne_zero _
  rw [sfree, if_neg hne, Nat.add_sub_cancel]
  simp only [h.used r hr, Bool.false_eq_true, if_false, if_pos (h.size r hr).2]
  rfl

/-- **`deallocate_mmap`** of a mapped block. -/
theorem deallocateMmap_spec (h : Rep os s B) (hm : Mapped os s) (hr : r ∈ s.kernel.maps) :
    (deallocateMmap s r.1).mem = s.mem ∧ Rep os (deallocateMmap s r.1) B ∧
      Mapped os (deallocateMmap s r.1) ∧
      (deallocateMmap s r.1).kernel = { s.kernel with
        maps := s.kernel.maps.erase r, munmaps := r :: s.kernel.munmaps } ∧
      (deallocateMmap s r.1).numOfMetadatas = subT s.numOfMetadatas 1 := by
  have hword := (hm.range r hr).2.1
  obtain ⟨hlen, hbig⟩ := hm.size r hr
  have hpair : ((r.1, sizeT (s.get .size r.1 + metaSize)) : Nat × Nat) = r := by
    rw [sizeT_of_lt (by omega), ← hlen]
  have hk : (deallocateMmap s r.1).kernel = { s.kernel with
      maps := s.kernel.maps.erase r, munmaps := r :: s.kernel.munmaps } := by
    simp only [deallocateMmap, munmap, hpair]
  have hmaps : (deallocateMmap s r.1).kernel.maps = s.kernel.maps.erase r := by rw [hk]
  have hperm := List.perm_cons_erase hr
  have hmem : ∀ t ∈ s.kernel.maps.erase r, t ∈ s.kernel.maps := fun t ht => List.mem_of_mem_erase ht
  have hsame := deallocateMmap_mem s r.1
  refine ⟨hsame, h.congr_segment (fun x _ _ => by rw [hsame]) (by rw [hk]) ?_ ?_ ?_, ?_, hk, rfl⟩
  · rw [deallocateMmap]
  · rw [deallocateMmap]
  · rw [deallocateMmap]
  refine ⟨?_, ?_, ?_, ?_, ?_, ?_, hmaps ▸ fun t ht => hm.page t (hmem t ht)⟩
  · rw [hmaps]
    exact fun t ht => hm.range t (hmem t ht)
  · rw [hmaps]
    exact hm.apart.sublist List.erase_sublist
  · rw [hmaps]
    simp only [deallocateMmap_get]
    exact fun t ht => hm.size t (hmem t ht)
  · rw [hmaps]
    simp only [Heap.isFree, deallocateMmap_get]
    exact fun t ht => hm.used t (hmem t ht)
  · have hnum : (deallocateMmap s r.1).mmapedBlocksNum = subT s.mmapedBlocksNum 1 := rfl
    rw [hmaps, List.length_erase_of_mem hr, hnum]
    have := List.length_pos_of_mem hr
    have := hm.length_lt
    rw [hm.blocksNum, subT_of_le (by omega) (by omega)]
  · have hnum : (deallocateMmap s r.1).mmapedBytesNum =
        subT s.mmapedBytesNum (s.get .size r.1) := rfl
    simp only [hmaps, deallocateMmap_get, hnum]
    have hsum : s.mmapedBytesNum = s.get .size r.1 +
        ((s.kernel.maps.erase r).map fun t => s.get .size t.1).sum := by
      rw [hm.bytesNum, (hperm.map fun t => s.get .size t.1).sum_eq, List.map_cons, List.sum_cons]
    have hlt := hm.bytesNum_lt
    rw [subT_of_le (by omega) hlt, hsum, Nat.add_sub_cancel_left]

end Mapped

end OsAllHw.Malloc
