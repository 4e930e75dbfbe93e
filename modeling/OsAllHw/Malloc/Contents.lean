import OsAllHw.Malloc.BestFit

/-!
# Contents across `srealloc`

What `srealloc` does to the bytes of the block it is given. A block of the
heap list was followed through its seven branches in `srealloc_heap`; here
a request of `MMAP_SIZE` bytes or more moves the bytes to a mapping of
their own, and a mapped block is kept, cut in two, or copied to another
mapping.

After a mapped block was cut the heap is no longer well formed (the rest of
the mapping is on the heap list), but the block itself still is what the
caller was promised.
-/

namespace OsAllHw.Malloc

open Lib

/-- A heap whose list is `B` and whose mappings carry the header `mmap_wrapper`
gave them: the links are zero, as the kernel left them. -/
structure WellFormed (os : Os) (s : Heap) (B : List Block) : Prop where
  rep : Rep os s B
  mapped : Mapped os s
  unlinked : ∀ t ∈ s.kernel.maps, s.get .listNext t.1 = 0

/-- `p` is the payload of a block in use, on the heap list or in a mapping
of its own. -/
def LiveAt (os : Os) (s : Heap) (p : Nat) : Prop :=
  s.isFree (p - metaSize) = false ∧
    ((∃ B, Core os s B ∧ p ∈ usedPayloads B) ∨ p ∈ mapPayloads s.kernel.maps)

/-- What a block holds after `srealloc` answered: `n` is its old size, `r`
the rounded request. -/
def Preserved (os : Os) (s : Heap) (p n r : Nat) (x : Nat × Heap) : Prop :=
  if x.1 = 0 then
    LiveAt os x.2 p ∧ x.2.get .size (p - metaSize) = n ∧ Copied s x.2 p p n
  else
    LiveAt os x.2 x.1 ∧ r ≤ x.2.get .size (x.1 - metaSize) ∧ Copied s x.2 p x.1 (min n r)

section Live

variable {os : Os} {s s' : Heap} {B : List Block} {b m : Block} {t : Nat × Nat} {p n r : Nat}

theorem Core.liveAt (h : Core os s B) (hb : b ∈ B) (hf : b.free = false) :
    LiveAt os s b.payload := by
  refine ⟨?_, .inl ⟨B, h, b, hb, hf, rfl⟩⟩
  rw [payload_sub]
  exact (h.flag b hb).trans hf

theorem Mapped.liveAt (h : Mapped os s) (ht : t ∈ s.kernel.maps) :
    LiveAt os s (t.1 + metaSize) := by
  refine ⟨?_, .inr ⟨t, ht, rfl⟩⟩
  rw [Nat.add_sub_cancel]
  exact h.used t ht

theorem Preserved.null (h : LiveAt os s' p) (hsize : s'.get .size (p - metaSize) = n)
    (hcopy : Copied s s' p p n) : Preserved os s p n r (0, s') := by
  rw [Preserved, if_pos rfl]
  exact ⟨h, hsize, hcopy⟩

theorem Preserved.block {q : Nat} (hq : q ≠ 0) (h : LiveAt os s' q)
    (hsize : r ≤ s'.get .size (q - metaSize)) (hcopy : Copied s s' p q (min n r)) :
    Preserved os s p n r (q, s') := by
  rw [Preserved, if_neg hq]
  exact ⟨h, hsize, hcopy⟩

/-- The header of a block in the list, read back. -/
theorem Core.size_payload (h : Core os s B) (hb : b ∈ B) :
    s.get .size (b.payload - metaSize) = b.size := by
  rw [payload_sub]
  exact h.size b hb

/-- A call that only asked the kernel in vain. -/
theorem LiveAt.setKernel {k : Kernel} (h : LiveAt os s p) (hbrk : k.brk = s.kernel.brk)
    (hmaps : k.maps = s.kernel.maps) : LiveAt os { s with kernel := k } p := by
  refine ⟨h.1, h.2.imp ?_ fun hp => ?_⟩
  · rintro ⟨B, hB, hp⟩
    exact ⟨B, hB.setKernel hbrk.ge (hbrk.le.trans hB.brk_le), hp⟩
  · change p ∈ mapPayloads k.maps
    rwa [hmaps]

end Live

/-! ## Blocks of the heap list -/

section Blocks

variable {os : Os} {s s' : Heap} {L R B B' : List Block} {b m : Block} {r brk q lo : Nat}

theorem mem_dropFreeHead (hb : b ∈ R) (hf : b.free = false) : b ∈ dropFreeHead R := by
  cases R with
  | nil => simp at hb
  | cons c R =>
      cases hc : c.free with
      | false => simpa [dropFreeHead, hc] using hb
      | true => simpa [dropFreeHead, hc, ne_of_free hf hc] using hb

theorem mem_freed (hb : b ∈ L ++ m :: R) (hf : b.free = false) (hne : b ≠ m) :
    b ∈ freed L m R := by
  rw [freed, List.mem_append, List.mem_cons]
  rw [List.mem_append, List.mem_cons] at hb
  rcases hb with hb | hb | hb
  · refine .inl ?_
    rw [dropFreeLast, List.mem_reverse]
    exact mem_dropFreeHead (List.mem_reverse.mpr hb) hf
  · exact absurd hb hne
  · exact .inr (.inr (mem_dropFreeHead hb hf))

/-- The block behind the pointer `srealloc` returns. -/
theorem Reallocates.exists_block (h : Reallocates r brk L m R B' q) (hm : m.free = false)
    (hB : Layout lo (L ++ m :: R) brk) :
    ∃ b ∈ B', b.free = false ∧ b.payload = q ∧ r ≤ b.size := by
  have hcut : ∀ (a : Block) (T U : List Block), r ≤ a.size →
      ∃ b ∈ T ++ cut a r ++ U, b.free = false ∧ b.payload = a.payload ∧ r ≤ b.size := by
    intro a T U ha
    obtain ⟨n, V, hV, haddr, hf, hr⟩ := exists_cut a r ha
    exact ⟨n, by simp [hV], hf, payload_inj.mpr haddr, hr⟩
  cases h with
  | inPlace hr => exact hcut m L R hr
  | left L' a hL ha hlt hr => exact hcut _ L' R hr
  | right R' c hR hc hlt hr => exact hcut _ L R' hr
  | both L' R' a c hL hR ha hc hlt hr => exact hcut _ L' R' hr
  | wilderness hR hlt => exact ⟨{ m with size := r }, by simp, hm, rfl, le_rfl⟩
  | move L' R' q hlt halloc =>
      obtain ⟨Ln, n, Rn, hn, rfl, hnf, hnr, hnew⟩ := halloc.exists_new hB
      have hmem : n ∈ L' ++ m :: R' := by rw [hn]; simp
      have hne : n ≠ m := fun he => hnew m (by simp) hm (by rw [he])
      exact ⟨n, mem_freed hmem hnf hne, hnf, rfl, hnr⟩

/-- Branches `a` to `f`. -/
theorem srealloc_small_preserved (size : Nat) (h : Rep os s (L ++ m :: R)) (hm : m.free = false)
    (h0 : roundUp size ≠ 0) (hlt : roundUp size < mmapSize)
    (hfit : srealloc .malloc4 os s m.payload size ≠ .error .addIndex) :
    ∃ x, srealloc .malloc4 os s m.payload size = .ok x ∧
      Preserved os s m.payload m.size (roundUp size) x := by
  obtain ⟨hok, herr⟩ := srealloc_heap (v := .malloc4) size h hm h0 hlt (.inl rfl)
  obtain ⟨x, hrun, hx, hkept⟩ := hok (not_not.mp fun hn => hfit (herr hn))
  refine ⟨x, hrun, ?_⟩
  cases hx with
  | null s' hrep hkeeps hfail =>
      exact .null (hrep.core.liveAt (by simp) hm) (hrep.core.size_payload (by simp))
        (hkept.stayed rfl)
  | block B' q s' hrel hrep hkeeps =>
      obtain ⟨b, hb, hbf, rfl, hbr⟩ := hrel.exists_block hm h.core.layout
      have hb0 := payload_ne_zero b
      exact .block hb0 (hrep.core.liveAt hb hbf) ((hrep.core.size_payload hb).symm ▸ hbr)
        (hkept.moved hb0)

end Blocks

/-! ## Mappings -/

section Mappings

variable {os : Os} {s s' : Heap} {B : List Block} {t : Nat × Nat} {p n r : Nat}

/-- Where a live block lies: in the data segment, or in a mapping of its own. -/
theorem live_region (h : Rep os s B) (hm : Mapped os s)
    (hp : p ∈ usedPayloads B ∨ p ∈ mapPayloads s.kernel.maps) :
    LiveAt os s p ∧ metaSize ≤ p ∧
      (os.brk0 + metaSize ≤ p ∧ p + s.get .size (p - metaSize) ≤ os.limit ∨
        ∃ u ∈ s.kernel.maps, u.1 + metaSize = p ∧ u.2 = s.get .size (p - metaSize) + metaSize) := by
  rcases hp with ⟨b, hb, hf, rfl⟩ | ⟨u, hu, rfl⟩
  · have h1 := (h.core.layout.bounds hb).1
    have h2 := (h.core.fin_le hb).trans h.core.brk_le
    refine ⟨h.core.liveAt hb hf, Nat.le_add_left _ _, .inl ⟨Nat.add_le_add_right h1 _, ?_⟩⟩
    rw [h.core.size_payload hb]
    exact h2
  · refine ⟨hm.liveAt hu, Nat.le_add_left _ _, .inr ⟨u, hu, rfl, ?_⟩⟩
    rw [Nat.add_sub_cancel]
    exact (hm.size u hu).1

/-- A block outside a new mapping is as it was. -/
theorem copied_outside {a len : Nat} (hp : metaSize ≤ p) (hn : s.get .size (p - metaSize) = n)
    (hmem : ∀ x, x < a ∨ a + len ≤ x → s'.mem x = s.mem x)
    (hclear : p + n ≤ a ∨ a + len + metaSize ≤ p) :
    s'.get .size (p - metaSize) = n ∧ Copied s s' p p n := by
  have h2 := Field.size.end_le
  refine ⟨?_, fun i hi => hmem _ (by omega)⟩
  rw [← hn]
  exact Mem.loadLE_congr fun x h3 h4 => hmem x (by omega)

/-- The mapping the bytes were copied to. -/
theorem Mapped.preserved (h : Mapped os s') (ht : t ∈ s'.kernel.maps) (hlen : t.2 = r + metaSize)
    (hcopy : Copied s s' p (t.1 + metaSize) (min n r)) :
    Preserved os s p n r (t.1 + metaSize, s') := by
  refine .block (Nat.succ_ne_zero _) (h.liveAt ht) ?_ hcopy
  rw [Nat.add_sub_cancel]
  have := (h.size t ht).1
  omega

/-- Releasing one block leaves the other mappings alone. -/
theorem sfree_copied (h : Rep os s B) (hm : Mapped os s) (ht : t ∈ s.kernel.maps)
    (hp : p ∈ usedPayloads B ∨ p ∈ mapPayloads s.kernel.maps) (hpt : p ≠ t.1 + metaSize)
    (hfit : sfree s p ≠ .error .addIndex) :
    ∃ s', sfree s p = .ok s' ∧ Mapped os s' ∧ t ∈ s'.kernel.maps ∧
      Copied s s' (t.1 + metaSize) (t.1 + metaSize) (t.2 - metaSize) := by
  rcases hp with ⟨m, hmem, hf, rfl⟩ | ⟨u, hu, rfl⟩
  · obtain ⟨L, R, rfl⟩ := List.append_of_mem hmem
    obtain ⟨hok, herr⟩ := sfree_heap h hf
    obtain ⟨s', hrun, hrep, hkeeps⟩ := hok (not_le.mp fun hn => hfit (herr hn))
    refine ⟨s', hrun, hm.of_keeps hkeeps, by rw [hkeeps.maps]; exact ht, fun i hi => ?_⟩
    have := (hm.range t ht).2.2
    exact hkeeps.off _ (by omega)
  · obtain ⟨hmem, -, hm', hk, -⟩ := deallocateMmap_spec h hm hu
    refine ⟨_, sfree_mapped hm hu, hm', ?_, fun i _ => by rw [hmem]⟩
    rw [hk]
    exact (List.mem_erase_of_ne fun he => hpt (by rw [he])).mpr ht

/-- The copy into a new mapping and the release of the old block. -/
theorem moved_to_map {a : Nat} (h : Rep os s' B) (hm : Mapped os s')
    (ht : (a, r + metaSize) ∈ s'.kernel.maps)
    (hp : p ∈ usedPayloads B ∨ p ∈ mapPayloads s'.kernel.maps) (hpa : p ≠ a + metaSize)
    (hcopy : Copied s s' p p n)
    (hfit : sfree (s'.memmove (a + metaSize) p (min n r)) p ≠ .error .addIndex) :
    ∃ s'', sfree (s'.memmove (a + metaSize) p (min n r)) p = .ok s'' ∧
      Preserved os s p n r (a + metaSize, s'') := by
  have hlen : min n r ≤ r + metaSize - metaSize := by omega
  obtain ⟨hrep2, hmapped2⟩ := hm.writeIn h ht
    (m := s'.mem.copyBytes (a + metaSize) p (min n r)) fun x hx =>
      Mem.copyBytes_of_outside _ (by dsimp only at hx; omega)
  have hcopy2 : Copied s' (s'.memmove (a + metaSize) p (min n r)) p (a + metaSize) (min n r) :=
    memmove_copied s' _ _ le_rfl
  obtain ⟨s'', hrun, hmapped3, ht3, hcopy3⟩ := sfree_copied hrep2 hmapped2 ht hp hpa hfit
  refine ⟨s'', hrun, hmapped3.preserved (t := (a, r + metaSize)) ht3 rfl ?_⟩
  exact ((hcopy.mono (Nat.min_le_left _ _)).trans hcopy2).trans (hcopy3.mono hlen)

/-- The old block is clear of the mapping `mmap_wrapper` made. -/
theorem clear_of_map {a len : Nat} {M : List (Nat × Nat)} (hm : Mapped os s')
    (hmaps : s'.kernel.maps = (a, len) :: M)
    (hregion : os.brk0 + metaSize ≤ p ∧ p + n ≤ os.limit ∨
      ∃ u ∈ M, u.1 + metaSize = p ∧ u.2 = n + metaSize) :
    p + n ≤ a ∨ a + len + metaSize ≤ p := by
  have ht : (a, len) ∈ s'.kernel.maps := hmaps ▸ List.mem_cons_self
  have hoff := (hm.range _ ht).2.2
  have hapart := hm.apart
  rw [hmaps] at hapart
  rcases hregion with ⟨h1, h2⟩ | ⟨u, hu, rfl, hu2⟩
  · omega
  · have : Apart (a, len) u := (List.pairwise_cons.mp hapart).1 u hu
    unfold Apart at this
    omega

/-- **A request of `MMAP_SIZE` bytes or more.** -/
theorem srealloc_large_preserved {size : Nat} (h : Rep os s B) (hm : Mapped os s)
    (hp : p ∈ usedPayloads B ∨ p ∈ mapPayloads s.kernel.maps)
    (hbig : mmapSize ≤ roundUp size) (hmax : roundUp size ≤ maxRequest)
    (hfit : srealloc .malloc4 os s p size ≠ .error .addIndex) :
    ∃ x, srealloc .malloc4 os s p size = .ok x ∧
      Preserved os s p (s.get .size (p - metaSize)) (roundUp size) x := by
  obtain ⟨hlive, hle, hregion⟩ := live_region h hm hp
  obtain ⟨n, hn⟩ : ∃ n, s.get .size (p - metaSize) = n := ⟨_, rfl⟩
  rw [hn] at hregion ⊢
  have hp0 : p ≠ 0 := (Nat.lt_of_lt_of_le (by decide) hle).ne'
  have h0 : roundUp size ≠ 0 := (Nat.lt_of_lt_of_le (by decide) hbig).ne'
  rcases mmapWrapper_cases h hm hbig hmax with
    ⟨k, -, hmk, h1, -, h3, -⟩ | ⟨a, s', -, hmk, hrep, hmapped, hk, -, hmem, -⟩
  · refine ⟨(0, { s with kernel := k }), ?_, .null (hlive.setKernel h3 h1) hn (.refl _ _ _)⟩
    rw [srealloc_large (v := .malloc4) hp0 h0 hmax hbig hmk, if_pos rfl]
  · have hrun := srealloc_large (v := .malloc4) hp0 h0 hmax hbig hmk
    have hmaps : s'.kernel.maps = (a, roundUp size + metaSize) :: s.kernel.maps := by rw [hk]
    have hclear := clear_of_map hmapped hmaps hregion
    obtain ⟨hn', hcopy⟩ := copied_outside hle hn hmem hclear
    have ha0 : a + metaSize ≠ 0 := Nat.succ_ne_zero _
    rw [if_neg ha0, hn'] at hrun
    have hpa : p ≠ a + metaSize := by
      intro he
      have hms : metaSize = 48 := rfl
      omega
    have hp' : p ∈ usedPayloads B ∨ p ∈ mapPayloads s'.kernel.maps := by
      refine hp.imp_right fun ⟨u, hu, hup⟩ => ⟨u, ?_, hup⟩
      rw [hmaps]
      exact List.mem_cons_of_mem _ hu
    obtain ⟨s'', hrun', hpres⟩ := moved_to_map hrep hmapped (hmaps ▸ List.mem_cons_self) hp' hpa
      hcopy fun he => hfit (by rw [hrun]; exact congrArg (· >>= _) he)
    exact ⟨_, by rw [hrun]; exact congrArg (· >>= _) hrun', hpres⟩

end Mappings

/-! ## A mapped block cut in two -/

section Cut

variable {os : Os} {s : Heap} {B : List Block} {t : Nat × Nat} {c n r : Nat}

/-- `split_block` of a block that is not on the list: the rest gets a header
and a bucket, the block keeps `r` bytes. -/
theorem Rep.splitOutside (h : Rep os s B)
    (hH : Headers (insert (c + metaSize + r) (insert c (heads B))))
    (hout : c + metaSize + r ∉ heads B) (hused : s.isFree c = false)
    (hnext : s.get .listNext c = 0) (hn : s.get .size c = n) (hr : r + metaSize ≤ n) :
    (n - r - metaSize < mmapSize → ∃ s', splitBlock s c r = .ok s' ∧
      Tame (insert (c + metaSize + r) (insert c (heads B))) s s' ∧
      s'.get .size c = r ∧ s'.isFree c = false) ∧
    (mmapSize ≤ n - r - metaSize → splitBlock s c r = .error .addIndex) := by
  have hms : metaSize = 48 := rfl
  obtain ⟨a, ha⟩ : ∃ a, a = c + metaSize + r := ⟨_, rfl⟩
  obtain ⟨v, hv⟩ : ∃ v, v = n - r - metaSize := ⟨_, rfl⟩
  have hnw : n < 2 ^ 64 := hn ▸ get_lt s .size c
  rw [← ha] at hH hout ⊢
  rw [← hv]
  have haH : a ∈ insert a (insert c (heads B)) := Set.mem_insert _ _
  have hcH : c ∈ insert a (insert c (heads B)) := Set.mem_insert_of_mem _ (Set.mem_insert _ _)
  have hBH : heads B ⊆ insert a (insert c (heads B)) :=
    (Set.subset_insert c (heads B)).trans (Set.subset_insert a _)
  have hac : a ≠ c := by omega
  have hapart := hH.apart a haH c hcH hac
  have hrest : subT (subT (s.get .size c) r) metaSize = v := by
    rw [hn, subT_of_le (by omega) hnw, subT_of_le (by omega) (by omega), hv]
  have hvw : IsWord v := by unfold IsWord; omega
  obtain ⟨-, hsize1, -⟩ := h.core.placeMetadata_outside (hH.mono
    (Set.insert_subset_insert (Set.subset_insert c _))) hout hvw
  have hstart : splitBlock s c r = (do
      let s ← addNodeHisto
        { placeMetadata s a true v with numOfMetadatas := s.numOfMetadatas + 1 } a
      let s ← removeNodeHisto s c
      return addNodeList (placeMetadata s c false r) a c) := by
    rw [splitBlock, hrest, ← ha]
    rfl
  rw [hstart]
  refine ⟨fun hfit => ?_, fun hbig => ?_⟩
  · have hSH : freeHeads B ⊆ insert a (insert c (heads B)) := freeHeads_subset.trans hBH
    have haS : a ∉ freeHeads B := fun hm => hout (freeHeads_subset hm)
    have hbin : Binned (placeMetadata s a true v) (freeHeads B) :=
      (h.binned.put_notMem hH hSH haH haS _ _).put_notMem hH hSH haH haS _ _
    obtain ⟨s3, hrun3, hstep3, -⟩ := addNodeHisto_spec
      (s := { placeMetadata s a true v with numOfMetadatas := s.numOfMetadatas + 1 })
      hH hSH haH haS (hsize1.trans_lt hfit) (hbin.setNum _)
    -- the header of the block itself, through both writes
    have hget : ∀ g, g ∉ histoFields → s3.get g c = s.get g c := by
      intro g hg
      rw [hstep3.get hH hg hcH]
      exact (get_put_apart _ hapart).trans (get_put_apart _ hapart)
    have hflag3 : s3.isFree c = false := by
      rw [Heap.isFree, hget _ (by simp [histoFields])]
      exact hused
    have hrw : IsWord r := by unfold IsWord; omega
    have hsize4 : (placeMetadata s3 c false r).get .size c = r := by
      simp [placeMetadata, get_putWord hH, hcH, hrw]
    have hflag4 : (placeMetadata s3 c false r).isFree c = false := by
      simp [placeMetadata, Heap.isFree, get_putWord hH, get_putFlag hH, hcH, hrw]
    have hnext4 : (placeMetadata s3 c false r).get .listNext c = 0 := by
      rw [← hnext, ← hget .listNext (by simp [histoFields])]
      simp [placeMetadata, get_putWord hH, get_putFlag hH, hcH, hrw]
    have ha0 : a ≠ 0 := fun h0 => hH.zero_notMem (h0 ▸ haH)
    obtain ⟨hstep5, -⟩ := addNodeList_links hH haH hcH (.inl rfl) hac ha0 hnext4
    refine ⟨addNodeList (placeMetadata s3 c false r) a c, ?_, ?_, ?_, ?_⟩
    · rw [hrun3, ok_bind, removeNodeHisto_of_not_free hflag3]
      rfl
    · have htame1 : Tame (insert a (insert c (heads B))) s
          { placeMetadata s a true v with numOfMetadatas := s.numOfMetadatas + 1 } :=
        ((Tame.put s _ _ haH).trans (Tame.put _ _ _ haH)).setNum _
      have htame4 : Tame (insert a (insert c (heads B))) s3 (placeMetadata s3 c false r) :=
        (Tame.put s3 _ _ hcH).trans (Tame.put _ _ _ hcH)
      exact ((htame1.trans hstep3.tame).trans htame4).trans hstep5.tame
    · rw [hstep5.get hH (by simp [listFields]) hcH, hsize4]
    · rw [Heap.isFree, hstep5.get hH (by simp [listFields]) hcH]
      exact hflag4
  · have ha0 : a ≠ 0 := fun h0 => hH.zero_notMem (h0 ▸ haH)
    rw [addNodeHisto_error (s := { placeMetadata s a true v with
      numOfMetadatas := s.numOfMetadatas + 1 }) ha0 (hbig.trans hsize1.ge)]
    rfl

/-- A header inside a mapping, behind its first `r` bytes. -/
theorem cut_headers (h : Rep os s B) (hm : Mapped os s) (ht : t ∈ s.kernel.maps)
    (hr : metaSize + r + metaSize ≤ t.2) :
    Headers (insert (t.1 + metaSize + r) (insert t.1 (heads B))) ∧
      t.1 + metaSize + r ∉ heads B ∧
      ∀ i < r, t.1 + metaSize + i ∉
        headerBytes (insert (t.1 + metaSize + r) (insert t.1 (heads B))) := by
  have hms : metaSize = 48 := rfl
  obtain ⟨hpos, hword, hoff⟩ := hm.range t ht
  -- the headers of the list are in the data segment, off the mapping
  have hclear : ∀ p ∈ heads B, p + metaSize ≤ t.1 ∨ t.1 + t.2 ≤ p := by
    rintro _ ⟨b, hb, rfl⟩
    have h1 := (h.core.layout.bounds hb).1
    have h2 := (payload_le_fin b).trans ((h.core.fin_le hb).trans h.core.brk_le)
    unfold Block.payload at h2
    omega
  have hH : Headers (insert t.1 (heads B)) := by
    refine h.core.headers.insert hpos (by unfold IsWord; omega) fun p hp => ?_
    have := hclear p hp
    omega
  refine ⟨hH.insert (by omega) (by unfold IsWord; omega) ?_, fun hp => ?_, ?_⟩
  · rintro p (rfl | hp)
    · omega
    · have := hclear p hp
      omega
  · have := hclear _ hp
    omega
  · rintro i hi ⟨p, rfl | rfl | hp, h1, h2⟩
    · omega
    · omega
    · have := hclear p hp
      omega

/-- **A mapped block** asked for less than `MMAP_SIZE` bytes. -/
theorem srealloc_mapped_preserved {size : Nat} (h : WellFormed os s B)
    (ht : t ∈ s.kernel.maps) (h0 : roundUp size ≠ 0) (hlt : roundUp size < mmapSize)
    (hfit : srealloc .malloc4 os s (t.1 + metaSize) size ≠ .error .addIndex) :
    ∃ x, srealloc .malloc4 os s (t.1 + metaSize) size = .ok x ∧
      Preserved os s (t.1 + metaSize) (s.get .size t.1) (roundUp size) x := by
  have hms : metaSize = 48 := rfl
  have hmm : mmapSize = 131072 := rfl
  have hmr : maxRequest = 100000000 := rfl
  obtain ⟨r, hr⟩ : ∃ r, roundUp size = r := ⟨_, rfl⟩
  obtain ⟨n, hn⟩ : ∃ n, s.get .size t.1 = n := ⟨_, rfl⟩
  have hround : Version.malloc4.round size = r := hr
  obtain ⟨hlen, hbig⟩ := h.mapped.size t ht
  obtain ⟨htpos, htword, htoff⟩ := h.mapped.range t ht
  have hlive := h.mapped.liveAt ht
  rw [hn] at hlen hbig ⊢
  rw [hr] at h0 hlt ⊢
  have hp0 : t.1 + metaSize ≠ 0 := Nat.succ_ne_zero _
  have hmax : ¬(r = 0 ∨ maxRequest < r) := by omega
  have hsub : subT n r = n - r := subT_of_le (by omega) (by omega)
  have hrun : srealloc .malloc4 os s (t.1 + metaSize) size =
      if n - r ≥ 128 + metaSize then
        splitBlock s t.1 r >>= fun s => .ok (t.1 + metaSize, s)
      else .ok (t.1 + metaSize, s) := by
    rw [srealloc]
    simp only [hround, if_neg hmax, if_neg hp0, if_neg (Nat.not_le.mpr hlt), Nat.add_sub_cancel,
      hn, hsub, if_pos (show n ≥ r by omega)]
    rfl
  rw [hrun] at hfit ⊢
  by_cases hkeep : n - r ≥ 128 + metaSize
  · rw [if_pos hkeep] at hfit ⊢
    obtain ⟨hH, hout, hdata⟩ := cut_headers h.rep h.mapped ht (r := r) (by omega)
    obtain ⟨hok, herr⟩ := h.rep.splitOutside hH hout (h.mapped.used t ht) (h.unlinked t ht) hn
      (r := r) (by omega)
    obtain ⟨s', hsplit, htame, hsize, hused⟩ := hok (not_le.mp fun hbad => hfit (by
      rw [herr hbad]
      rfl))
    refine ⟨(t.1 + metaSize, s'), by rw [hsplit]; rfl, .block hp0 ⟨?_, .inr ⟨t, ?_, rfl⟩⟩ ?_ ?_⟩
    · rw [Nat.add_sub_cancel]
      exact hused
    · rw [htame.kernel]
      exact ht
    · rw [Nat.add_sub_cancel]
      exact hsize.ge
    · exact fun i hi => htame.frame _ (hdata i (hi.trans_le (Nat.min_le_right _ _)))
  · rw [if_neg hkeep]
    refine ⟨_, rfl, .block hp0 hlive ?_ (.refl _ _ _)⟩
    rw [Nat.add_sub_cancel, hn]
    omega

end Cut

/-! ## The call -/

/-- **`srealloc` keeps the data**: unless a block of `MMAP_SIZE` bytes or more
is handed to `add_node_histo`, it answers, and its answer is `Preserved`. -/
theorem srealloc_preserves {os : Os} {s : Heap} {B : List Block} {p size : Nat}
    (h : WellFormed os s B) (hp : p ∈ usedPayloads B ∨ p ∈ mapPayloads s.kernel.maps)
    (hfit : srealloc .malloc4 os s p size ≠ .error .addIndex) :
    ∃ x, srealloc .malloc4 os s p size = .ok x ∧
      Preserved os s p (s.get .size (p - metaSize)) (roundUp size) x := by
  by_cases hmax : roundUp size = 0 ∨ maxRequest < roundUp size
  · refine ⟨(0, s), ?_, .null (live_region h.rep h.mapped hp).1 rfl (.refl _ _ _)⟩
    have hmax' : Version.malloc4.round size = 0 ∨ maxRequest < Version.malloc4.round size := hmax
    rw [srealloc]
    simp only [if_pos hmax']
    rfl
  rw [not_or, Nat.not_lt] at hmax
  rcases Nat.lt_or_ge (roundUp size) mmapSize with hlt | hbig
  · rcases hp with ⟨m, hm, hf, rfl⟩ | ⟨t, ht, rfl⟩
    · obtain ⟨L, R, rfl⟩ := List.append_of_mem hm
      rw [h.rep.core.size_payload hm]
      exact srealloc_small_preserved size h.rep hf hmax.1 hlt hfit
    · rw [Nat.add_sub_cancel]
      exact srealloc_mapped_preserved h ht hmax.1 hlt hfit
  · exact srealloc_large_preserved h.rep h.mapped hp hbig hmax.2 hfit

/-- The first of two blocks, made smaller. -/
theorem srealloc_preserves_first : ∃ s, WellFormed .generous s twoBlocks ∧
    ∃ x, srealloc .malloc4 .generous s 4144 50 = .ok x ∧
      Preserved .generous s 4144 (s.get .size (4144 - metaSize)) (roundUp 50) x := by
  obtain ⟨s₀, -, h₀⟩ := exists_two_blocks
  obtain ⟨s, hs⟩ : ∃ s, s = { s₀ with
      mmapedBlocksNum := 0, mmapedBytesNum := 0, kernel := { s₀.kernel with maps := [] } } :=
    ⟨_, rfl⟩
  have hmaps : s.kernel.maps = [] := by rw [hs]
  have hrep : Rep .generous s twoBlocks := by
    refine h₀.congr_segment (fun x _ _ => ?_) ?_ ?_ ?_ ?_ <;> rw [hs]
  have hmapped : Mapped .generous s := by
    refine ⟨?_, ?_, ?_, ?_, ?_, ?_, ?_⟩ <;> simp [hmaps]
    all_goals rw [hs]
  have hwf : WellFormed .generous s twoBlocks := ⟨hrep, hmapped, by simp [hmaps]⟩
  have hround : Version.malloc4.round 50 = 56 := by decide +kernel
  have hrep' : Rep .generous s ([] ++ ⟨4096, 104, false⟩ :: [⟨4248, 104, false⟩]) := hrep
  obtain ⟨x, hrun, -⟩ := (srealloc_heap (v := .malloc4) 50 hrep' rfl (by rw [hround]; decide)
    (by rw [hround]; decide) (.inl rfl)).1 (by rw [hround]; decide)
  have hp : 4144 ∈ usedPayloads twoBlocks := ⟨⟨4096, 104, false⟩, by decide, rfl, rfl⟩
  exact ⟨s, hwf, srealloc_preserves hwf (.inl hp) fun he => by
    have hok : srealloc .malloc4 .generous s 4144 50 = .ok x := hrun
    rw [he] at hok
    cases hok⟩

end OsAllHw.Malloc
