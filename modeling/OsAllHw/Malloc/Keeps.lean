import OsAllHw.Malloc.Rep

/-!
# What a call leaves alone

`Keeps os own B B' s s'` says what a step from block list `B` to `B'` does
not touch: the mappings, every byte off the data segment, and the size and
payload of every allocated block whose header is not in `own`. It also says
that the counter and the program break move with the block list as long as
no `sbrk` fails, and that otherwise the break is ahead by whole headers. The
relation composes, so a call's frame is the composite of the frames of its
moves.
-/

namespace OsAllHw.Malloc

open Lib

structure Keeps (os : Os) (own : Set Nat) (B B' : List Block) (s s' : Heap) : Prop where
  maps : s'.kernel.maps = s.kernel.maps
  munmaps : s'.kernel.munmaps = s.kernel.munmaps
  blocksNum : s'.mmapedBlocksNum = s.mmapedBlocksNum
  bytesNum : s'.mmapedBytesNum = s.mmapedBytesNum
  failures : s.kernel.sbrkFailures ≤ s'.kernel.sbrkFailures
  off : ∀ x, x < os.brk0 ∨ os.limit ≤ x → s'.mem x = s.mem x
  used : ∀ b ∈ B, b.free = false → b.addr ∉ own →
    b ∈ B' ∧ ∀ x, b.payload ≤ x → x < b.fin → s'.mem x = s.mem x
  count : s'.kernel.sbrkFailures = 0 → ∀ k < 2 ^ 63, s.numOfMetadatas = B.length + k →
    s.kernel.brk = os.brk0 + totalBytes B →
    s'.numOfMetadatas = B'.length + k ∧ s'.kernel.brk = os.brk0 + totalBytes B'
  /-- `g` headers were left behind by a refused second `sbrk`. -/
  leak : ∃ g, s'.kernel.brk + totalBytes B = s.kernel.brk + totalBytes B' + metaSize * g

namespace Keeps

variable {os : Os} {own own' : Set Nat} {B B' B'' : List Block} {s s' s'' : Heap}

theorem refl (own : Set Nat) (B : List Block) (s : Heap) : Keeps os own B B s s where
  maps := rfl
  munmaps := rfl
  blocksNum := rfl
  bytesNum := rfl
  failures := le_rfl
  off := fun _ _ => rfl
  used := fun _ hb _ _ => ⟨hb, fun _ _ _ => rfl⟩
  count := fun _ _ _ h1 h2 => ⟨h1, h2⟩
  leak := ⟨0, rfl⟩

theorem trans (h : Keeps os own B B' s s') (h' : Keeps os own B' B'' s' s'') :
    Keeps os own B B'' s s'' where
  maps := h'.maps.trans h.maps
  munmaps := h'.munmaps.trans h.munmaps
  blocksNum := h'.blocksNum.trans h.blocksNum
  bytesNum := h'.bytesNum.trans h.bytesNum
  failures := h.failures.trans h'.failures
  off := fun x hx => (h'.off x hx).trans (h.off x hx)
  used := fun b hb hf ho => by
    obtain ⟨hb', hm⟩ := h.used b hb hf ho
    obtain ⟨hb'', hm'⟩ := h'.used b hb' hf ho
    exact ⟨hb'', fun x h1 h2 => (hm' x h1 h2).trans (hm x h1 h2)⟩
  count := fun h0 k hk h1 h2 => by
    obtain ⟨h3, h4⟩ := h.count (Nat.le_zero.mp (h0 ▸ h'.failures)) k hk h1 h2
    exact h'.count h0 k hk h3 h4
  leak := by
    obtain ⟨g, hg⟩ := h.leak
    obtain ⟨g', hg'⟩ := h'.leak
    exact ⟨g + g', by rw [Nat.mul_add]; omega⟩

/-- Only the allocated blocks of `B` matter to `own`. -/
theorem reown (h : Keeps os own B B' s s')
    (hown : ∀ b ∈ B, b.free = false → b.addr ∈ own → b.addr ∈ own') : Keeps os own' B B' s s' :=
  { h with used := fun b hb hf ho => h.used b hb hf fun hm => ho (hown b hb hf hm) }

theorem mono (hown : own ⊆ own') (h : Keeps os own B B' s s') : Keeps os own' B B' s s' :=
  h.reown fun _ _ _ hm => hown hm

end Keeps

/-! ## Frames from header writes -/

section Frames

variable {os : Os} {H own : Set Nat} {B B' : List Block} {b : Block} {s s' : Heap}

/-- Where a move may write a header: on the list before or after it, or in
memory just obtained. -/
def Writable (os : Os) (brk : Nat) (B B' : List Block) : Set Nat :=
  { p | p ∈ heads B ∨ p ∈ heads B' ∨ brk ≤ p ∧ p + metaSize ≤ os.limit }

theorem payload_notMem_headerBytes {lo hi : Nat} (hB : Layout lo B hi) (hb : b ∈ B) {x : Nat}
    (h1 : b.payload ≤ x) (h2 : x < b.fin) : x ∉ headerBytes (heads B) := by
  rintro ⟨_, ⟨c, hc, rfl⟩, h3, h4⟩
  by_cases hcb : c = b
  · subst hcb
    exact absurd h4 (Nat.not_lt.mpr h1)
  · have := hB.disjoint hc hb hcb
    have := payload_le_fin c
    have := addr_lt_payload b
    unfold Block.payload at *
    omega

/-- Bytes off the data segment survive header writes on it. -/
theorem off_of_headers (hmem : SameOff (headerBytes H) s s') (hB : Core os s B)
    (hB' : Core os s' B') (hH : H ⊆ Writable os s.kernel.brk B B') {x : Nat}
    (hx : x < os.brk0 ∨ os.limit ≤ x) : s'.mem x = s.mem x := by
  refine hmem x ?_
  rintro ⟨p, hp, h1, h2⟩
  have hlim : os.brk0 ≤ p ∧ p + metaSize ≤ os.limit := by
    rcases hH hp with ⟨c, hc, rfl⟩ | ⟨c, hc, rfl⟩ | ⟨h3, h4⟩
    · exact ⟨(hB.layout.bounds hc).1,
        (payload_le_fin c).trans ((hB.fin_le hc).trans hB.brk_le)⟩
    · exact ⟨(hB'.layout.bounds hc).1,
        (payload_le_fin c).trans ((hB'.fin_le hc).trans hB'.brk_le)⟩
    · exact ⟨hB.layout.le.trans h3, h4⟩
  omega

/-- A payload survives header writes if its block is still listed. -/
theorem payload_of_headers (hmem : SameOff (headerBytes H) s s') (hB : Core os s B)
    (hB' : Core os s' B') (hH : H ⊆ Writable os s.kernel.brk B B') (hb : b ∈ B) (hb' : b ∈ B')
    {x : Nat} (h1 : b.payload ≤ x) (h2 : x < b.fin) : s'.mem x = s.mem x := by
  refine hmem x ?_
  rintro ⟨p, hp, h3, h4⟩
  rcases hH hp with hp | hp | ⟨h5, -⟩
  · exact payload_notMem_headerBytes hB.layout hb h1 h2 ⟨p, hp, h3, h4⟩
  · exact payload_notMem_headerBytes hB'.layout hb' h1 h2 ⟨p, hp, h3, h4⟩
  · have := hB.fin_le hb
    omega

/-- The frame of a move, from the headers it writes. -/
theorem Keeps.of_headers (hmem : SameOff (headerBytes H) s s') (hB : Core os s B)
    (hB' : Core os s' B') (hH : H ⊆ Writable os s.kernel.brk B B')
    (hmaps : s'.kernel.maps = s.kernel.maps) (hmunmaps : s'.kernel.munmaps = s.kernel.munmaps)
    (hblocks : s'.mmapedBlocksNum = s.mmapedBlocksNum)
    (hbytes : s'.mmapedBytesNum = s.mmapedBytesNum)
    (hfail : s.kernel.sbrkFailures ≤ s'.kernel.sbrkFailures)
    (hused : ∀ b ∈ B, b.free = false → b.addr ∉ own → b ∈ B')
    (hcount : s'.kernel.sbrkFailures = 0 → ∀ k < 2 ^ 63, s.numOfMetadatas = B.length + k →
      s.kernel.brk = os.brk0 + totalBytes B →
      s'.numOfMetadatas = B'.length + k ∧ s'.kernel.brk = os.brk0 + totalBytes B')
    (hleak : ∃ g, s'.kernel.brk + totalBytes B = s.kernel.brk + totalBytes B' + metaSize * g) :
    Keeps os own B B' s s' where
  maps := hmaps
  munmaps := hmunmaps
  blocksNum := hblocks
  bytesNum := hbytes
  failures := hfail
  off := fun _ hx => off_of_headers hmem hB hB' hH hx
  used := fun b hb hf ho => by
    have hb' := hused b hb hf ho
    exact ⟨hb', fun x h1 h2 => payload_of_headers hmem hB hB' hH hb hb' h1 h2⟩
  count := hcount
  leak := hleak

/-- The frame of a move that makes no system call. -/
theorem Tame.keeps (h : Tame H s s') (hB : Core os s B) (hB' : Core os s' B')
    (hH : H ⊆ heads B ∪ heads B')
    (hused : ∀ b ∈ B, b.free = false → b.addr ∉ own → b ∈ B')
    (htotal : totalBytes B' = totalBytes B)
    (hnum : ∀ k < 2 ^ 63, s.numOfMetadatas = B.length + k → s'.numOfMetadatas = B'.length + k) :
    Keeps os own B B' s s' := by
  have hW : H ⊆ Writable os s.kernel.brk B B' := fun p hp =>
    (hH hp).imp_right Or.inl
  refine .of_headers h.frame hB hB' hW (by rw [h.kernel]) (by rw [h.kernel]) h.blocksNum
    h.bytesNum (by rw [h.kernel]) hused ?_ ⟨0, by rw [h.kernel, htotal]; rfl⟩
  intro _ k hk h1 h2
  rw [h.kernel, htotal]
  exact ⟨hnum k hk h1, h2⟩

end Frames

/-! ## The moves with their frames -/

section Moves

variable {os : Os} {s : Heap} {L R B : List Block} {b c : Block}

theorem Core.length_lt (h : Core os s B) : B.length < 2 ^ 60 := by
  have h1 : 48 * B.length ≤ totalBytes B := length_le_totalBytes B
  have h2 := h.layout.total_le
  have h3 := h.brk_lt
  omega

theorem mem_replace_of_ne {d : Block} (hd : d ∈ L ++ b :: R) (hne : d ≠ b) :
    d ∈ L ++ c :: R := by
  simp only [List.mem_append, List.mem_cons, hne, false_or] at hd ⊢
  exact hd.imp_right Or.inr

theorem ne_of_addr_notMem {d : Block} (h : d.addr ∉ ({b.addr} : Set Nat)) : d ≠ b :=
  fun he => h (he ▸ rfl)

theorem ne_of_free {d : Block} (hd : d.free = false) (hb : b.free = true) : d ≠ b :=
  fun he => by simp [he, hb] at hd

theorem Rep.markFree_keeps (h : Rep os s (L ++ b :: R)) (hb : b.free = false) :
    ∃ s', addNodeHisto (s.put .isFree b.addr 1) b.addr = .ok s' ∧
      Rep os s' (L ++ { b with free := true } :: R) ∧
      Keeps os {b.addr} (L ++ b :: R) (L ++ { b with free := true } :: R) s s' ∧
      Tame (heads (L ++ b :: R)) s s' := by
  obtain ⟨s', hrun, hrep, htame, hnum⟩ := h.markFree hb
  refine ⟨s', hrun, hrep, htame.keeps h.core hrep.core Set.subset_union_left ?_ ?_ ?_, htame⟩
  · exact fun d hd _ ho => mem_replace_of_ne hd (ne_of_addr_notMem ho)
  · simp [Block.bytes]
  · intro k _ hk
    simpa [hnum] using hk

theorem Rep.take_keeps (h : Rep os s (L ++ b :: R)) (hb : b.free = true) :
    ∃ s', removeNodeHisto s b.addr = .ok s' ∧
      Rep os (s'.put .isFree b.addr 0) (L ++ { b with free := false } :: R) ∧
      Keeps os ∅ (L ++ b :: R) (L ++ { b with free := false } :: R) s
        (s'.put .isFree b.addr 0) ∧
      Tame (heads (L ++ b :: R)) s (s'.put .isFree b.addr 0) := by
  obtain ⟨s', hrun, hrep, htame, hnum⟩ := h.take hb
  refine ⟨s', hrun, hrep, htame.keeps h.core hrep.core Set.subset_union_left ?_ ?_ ?_, htame⟩
  · exact fun d hd hdf _ => mem_replace_of_ne hd (ne_of_free hdf hb)
  · simp [Block.bytes]
  · intro k _ hk
    simpa [hnum] using hk

theorem Rep.unite_keeps (h : Rep os s (L ++ b :: c :: R)) (hb : b.free = true)
    (hc : c.free = true) (hsize : b.size + (c.size + metaSize) < mmapSize) :
    ∃ s', uniteRight s b.addr = .ok s' ∧
      Rep os s' (L ++ ⟨b.addr, b.size + (c.size + metaSize), true⟩ :: R) ∧
      Keeps os ∅ (L ++ b :: c :: R) (L ++ ⟨b.addr, b.size + (c.size + metaSize), true⟩ :: R)
        s s' ∧
      Tame (heads (L ++ b :: c :: R)) s s' ∧ s'.get .size c.addr = c.size := by
  obtain ⟨s', hrun, hrep, htame, hnum, hstale⟩ := h.unite hb hc hsize
  refine ⟨s', hrun, hrep, htame.keeps h.core hrep.core Set.subset_union_left ?_ ?_ ?_, htame,
    hstale.1.trans (h.core.size c (by simp))⟩
  · intro d hd hdf _
    have hdb := ne_of_free hdf hb
    have hdc := ne_of_free hdf hc
    simp only [List.mem_append, List.mem_cons, hdb, hdc, false_or] at hd ⊢
    exact hd.imp_right Or.inr
  · simp only [totalBytes_append, totalBytes_cons, Block.bytes]
    omega
  · intro k hk h1
    have hlen := h.core.length_lt
    rw [h1] at hnum
    rw [hnum, subT_of_le]
    · simp only [List.length_append, List.length_cons]
      omega
    · simp only [List.length_append, List.length_cons]
      omega
    · omega

theorem Rep.split_keeps (h : Rep os s (L ++ b :: R)) (own : Set Nat) {r : Nat}
    (hr : r + metaSize ≤ b.size) (hown : b.free = true ∨ b.addr ∈ own) :
    ∃ s', splitBlock s b.addr r = .ok s' ∧
      Rep os s' (L ++ ⟨b.addr, r, false⟩ ::
        ⟨b.addr + metaSize + r, b.size - r - metaSize, true⟩ :: R) ∧
      Keeps os own (L ++ b :: R) (L ++ ⟨b.addr, r, false⟩ ::
        ⟨b.addr + metaSize + r, b.size - r - metaSize, true⟩ :: R) s s' ∧
      Tame (insert (b.addr + metaSize + r) (heads (L ++ b :: R))) s s' := by
  obtain ⟨s', hrun, hrep, htame, hnum⟩ := h.split hr
  refine ⟨s', hrun, hrep, htame.keeps h.core hrep.core ?_ ?_ ?_ ?_, htame⟩
  · refine Set.insert_subset (.inr ?_) Set.subset_union_left
    exact ⟨⟨b.addr + metaSize + r, b.size - r - metaSize, true⟩, by simp, rfl⟩
  · intro d hd hdf hdo
    have hdb : d ≠ b := by
      rcases hown with hbf | hbo
      · exact ne_of_free hdf hbf
      · exact fun he => hdo (he ▸ hbo)
    have := mem_replace_of_ne (c := ⟨b.addr, r, false⟩) hd hdb
    simp only [List.mem_append, List.mem_cons] at this ⊢
    exact this.imp_right (Or.imp_right Or.inr)
  · simp only [totalBytes_append, totalBytes_cons, Block.bytes]
    omega
  · intro k _ h1
    rw [hnum, h1]
    simp only [List.length_append, List.length_cons]
    omega

/-- **Payload writes** by the client, `memmove` or `memset`. -/
theorem Rep.writeIn (h : Rep os s (L ++ b :: R)) {m : Mem} (own : Set Nat)
    (hm : ∀ x, x < b.payload ∨ b.fin ≤ x → m x = s.mem x)
    (hown : b.free = true ∨ b.addr ∈ own) :
    Rep os { s with mem := m } (L ++ b :: R) ∧
      Keeps os own (L ++ b :: R) (L ++ b :: R) s { s with mem := m } := by
  have hmem : b ∈ L ++ b :: R := by simp
  have hget : ∀ f, ∀ a ∈ heads (L ++ b :: R), Heap.get { s with mem := m } f a = s.get f a := by
    rintro f _ ⟨c, hc, rfl⟩
    refine SameOff.get_outside (W := { x | b.payload ≤ x ∧ x < b.fin }) ?_ ?_
    · intro x hx
      have hx' : ¬(b.payload ≤ x ∧ x < b.fin) := hx
      exact hm x (by omega)
    · rintro x ⟨h1, h2⟩
      by_cases hcb : c = b
      · subst hcb
        exact .inr h1
      · have := h.core.layout.disjoint hc hmem hcb
        have := payload_le_fin c
        unfold Block.payload at *
        omega
  refine ⟨⟨h.core.congr rfl rfl rfl fun a ha f _ => hget f a ha, h.small, ?_⟩,
    ⟨rfl, rfl, rfl, rfl, le_rfl, ?_, ?_, fun _ _ _ h1 h2 => ⟨h1, h2⟩, 0, rfl⟩⟩
  · exact h.binned.congr rfl fun a ha f _ => hget f a (freeHeads_subset ha)
  · intro x hx
    have h1 := (h.core.layout.bounds hmem).1
    have h2 := (h.core.fin_le hmem).trans h.core.brk_le
    have := addr_lt_payload b
    exact hm x (by omega)
  · intro d hd hdf hdo
    refine ⟨hd, fun x h1 h2 => hm x ?_⟩
    have hdb : d ≠ b := by
      rcases hown with hbf | hbo
      · exact ne_of_free hdf hbf
      · exact fun he => hdo (he ▸ hbo)
    have := h.core.layout.disjoint hd hmem hdb
    have := addr_lt_payload d
    have := addr_lt_payload b
    omega

end Moves

/-! ## Contents -/

/-- The first `n` bytes at `dst` are what was at `src`. -/
def Copied (s s' : Heap) (src dst n : Nat) : Prop := ∀ i < n, s'.mem (dst + i) = s.mem (src + i)

section Copied

variable {os : Os} {s s' s'' : Heap} {L R B : List Block} {b : Block} {H : Set Nat}
  {p q t a n k r : Nat}

theorem Copied.refl (s : Heap) (p n : Nat) : Copied s s p p n := fun _ _ => rfl

theorem Copied.trans (h : Copied s s' p q n) (h' : Copied s' s'' q t n) : Copied s s'' p t n :=
  fun i hi => (h' i hi).trans (h i hi)

theorem Copied.mono (h : Copied s s' p q n) (hk : k ≤ n) : Copied s s' p q k :=
  fun i hi => h i (hi.trans_le hk)

theorem memmove_copied (s : Heap) (dst src : Nat) (hk : k ≤ n) :
    Copied s (s.memmove dst src n) src dst k := by
  intro i hi
  change s.mem.copyBytes dst src n (dst + i) = _
  rw [Mem.copyBytes, if_pos (by omega), Nat.add_sub_cancel_left]

/-- A payload survives writes to the headers of the list, and to a header
further back in its own block. -/
theorem Core.copied (h : Core os s B) (hb : b ∈ B)
    (htame : Tame (insert (b.addr + metaSize + r) (heads B)) s s') (hn : n ≤ b.size)
    (hr : n ≤ r) : Copied s s' b.payload b.payload n := by
  refine fun i hi => htame.frame _ ?_
  rintro ⟨p, hp | hp, h1, h2⟩
  · unfold Block.payload at h1
    omega
  · refine payload_notMem_headerBytes h.layout hb (Nat.le_add_right _ i) ?_ ⟨p, hp, h1, h2⟩
    unfold Block.payload Block.fin
    omega

theorem Core.copied_heads (h : Core os s B) (hb : b ∈ B) (htame : Tame (heads B) s s')
    (hn : n ≤ b.size) : Copied s s' b.payload b.payload n :=
  h.copied hb (htame.mono (Set.subset_insert _ _)) hn le_rfl

/-- A header off the list is not written. -/
theorem Tame.get_off_list (h : Tame (heads B) s s') (hH : Headers H) (hB : heads B ⊆ H)
    (ha : a ∈ H) (hout : a ∉ heads B) (f : Field) : s'.get f a = s.get f a := by
  refine h.frame.get_outside ?_
  rintro x ⟨p, hp, h1, h2⟩
  have hap := hH.apart p (hB hp) a ha fun he => hout (he ▸ hp)
  omega

end Copied

end OsAllHw.Malloc
