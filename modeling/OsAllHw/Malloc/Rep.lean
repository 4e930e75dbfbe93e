import OsAllHw.Malloc.Blocks
import OsAllHw.Malloc.Histo

/-!
# The representation invariant

`Core os s B` ties the heap list in memory to the block list `B`: links,
end pointers, sizes and flags. `Rep os s B` adds that the histogram holds
exactly the free blocks. The functions of the allocator pass through states
where the flags and the histogram disagree; at those points only `Core` and
`Binned` of some other set hold.

Each lemma of the last section is one move between two `Rep` states: mark a
block free, take one, unite two, split one. The calls of the allocator are
sequences of these moves.
-/

namespace OsAllHw.Malloc

open Lib

/-- The heap list in memory is `B`. -/
structure Core (os : Os) (s : Heap) (B : List Block) : Prop where
  layout : Layout os.brk0 B s.kernel.brk
  brk_le : s.kernel.brk ≤ os.limit
  head : s.allListHead = firstAddr B
  last : s.allListEnd = lastAddr B
  linked : Seg (s.get .listNext) (s.get .listPrev) 0 (B.map Block.addr) 0
  size : ∀ b ∈ B, s.get .size b.addr = b.size
  flag : ∀ b ∈ B, s.isFree b.addr = b.free

/-- The heap list is `B`, no block is too large for the histogram, and the
histogram holds the free blocks. -/
structure Rep (os : Os) (s : Heap) (B : List Block) : Prop where
  core : Core os s B
  small : ∀ b ∈ B, b.size < mmapSize
  binned : Binned s (freeHeads B)

/-- All bytes of the headers in `H`. -/
def headerBytes (H : Set Nat) : Set Nat := { x | ∃ p ∈ H, p ≤ x ∧ x < p + metaSize }

theorem headerBytes_mono {H H' : Set Nat} (h : H ⊆ H') : headerBytes H ⊆ headerBytes H' :=
  fun _ ⟨p, hp, hx⟩ => ⟨p, h hp, hx⟩

theorem fieldBytes_subset (F : Set Field) (H : Set Nat) : fieldBytes F H ⊆ headerBytes H :=
  fun _ hx => fieldBytes_range hx

/-- Only headers in `H` were written, and only the heap's own variables. -/
structure Tame (H : Set Nat) (s s' : Heap) : Prop where
  kernel : s'.kernel = s.kernel
  blocksNum : s'.mmapedBlocksNum = s.mmapedBlocksNum
  bytesNum : s'.mmapedBytesNum = s.mmapedBytesNum
  frame : SameOff (headerBytes H) s s'

namespace Tame

variable {H H' : Set Nat} {s s' s'' : Heap}

theorem refl (s : Heap) : Tame H s s := ⟨rfl, rfl, rfl, .refl _ s⟩

theorem trans (h : Tame H s s') (h' : Tame H s' s'') : Tame H s s'' :=
  ⟨h'.kernel.trans h.kernel, h'.blocksNum.trans h.blocksNum, h'.bytesNum.trans h.bytesNum,
    h.frame.trans h'.frame⟩

theorem mono (hH : H ⊆ H') (h : Tame H s s') : Tame H' s s' :=
  ⟨h.kernel, h.blocksNum, h.bytesNum, h.frame.mono (headerBytes_mono hH)⟩

theorem put (s : Heap) (f : Field) {p : Nat} (v : Nat) (hp : p ∈ H) : Tame H s (s.put f p v) :=
  ⟨rfl, rfl, rfl, (SameOff.put s v (Set.mem_univ f) hp).mono (fieldBytes_subset _ _)⟩

theorem setNum (h : Tame H s s') (n : Nat) : Tame H s { s' with numOfMetadatas := n } :=
  ⟨h.kernel, h.blocksNum, h.bytesNum, fun x hx => h.frame x hx⟩

end Tame

theorem HistoStep.tame {H : Set Nat} {s s' : Heap} (h : HistoStep H s s') : Tame H s s' := by
  obtain ⟨⟨m, fh, rfl⟩, hf⟩ := h
  exact ⟨rfl, rfl, rfl, hf.mono (fieldBytes_subset _ _)⟩

section Core

variable {os : Os} {s s' : Heap} {L R B : List Block} {b c : Block}

theorem Core.brk_lt (h : Core os s B) : s.kernel.brk < 2 ^ 64 := h.brk_le.trans_lt os.limit_lt

theorem Core.fin_le (h : Core os s B) (hb : b ∈ B) : b.fin ≤ s.kernel.brk :=
  (h.layout.bounds hb).2

/-- The headers of the list do not overlap. -/
theorem Core.headers (h : Core os s B) : Headers (heads B) := by
  refine ⟨?_, ?_, ?_⟩
  · rintro _ ⟨b, hb, rfl⟩
    exact os.brk0_pos.trans_le (h.layout.bounds hb).1
  · rintro _ ⟨b, hb, rfl⟩
    exact ((addr_lt_fin b).trans_le (h.fin_le hb)).trans h.brk_lt
  · rintro _ ⟨b, hb, rfl⟩ _ ⟨c, hc, rfl⟩ hne
    have hb' := payload_le_fin b
    have hc' := payload_le_fin c
    unfold Block.payload at hb' hc'
    have := h.layout.disjoint hb hc fun he => hne (he ▸ rfl)
    omega

/-- The list links of a block. -/
theorem Core.links (h : Core os s (L ++ b :: R)) :
    s.get .listPrev b.addr = lastAddr L ∧ s.get .listNext b.addr = firstAddr R := by
  have hl := h.linked
  rw [List.map_append, List.map_cons] at hl
  exact hl.links

/-- Replacing the header contents of one block. -/
theorem Core.setBlock (h : Core os s (L ++ b :: R)) (haddr : c.addr = b.addr)
    (hhead : s'.allListHead = s.allListHead) (hend : s'.allListEnd = s.allListEnd)
    (hlay : Layout os.brk0 (L ++ c :: R) s'.kernel.brk) (hbrk : s'.kernel.brk ≤ os.limit)
    (hnext : ∀ a ∈ heads (L ++ b :: R), s'.get .listNext a = s.get .listNext a)
    (hprev : ∀ a ∈ heads (L ++ b :: R), s'.get .listPrev a = s.get .listPrev a)
    (hother : ∀ a ∈ heads (L ++ b :: R), a ≠ b.addr →
      s'.get .size a = s.get .size a ∧ s'.get .isFree a = s.get .isFree a)
    (hsize : s'.get .size b.addr = c.size) (hflag : s'.isFree b.addr = c.free) :
    Core os s' (L ++ c :: R) := by
  have hmap : (L ++ c :: R).map Block.addr = (L ++ b :: R).map Block.addr := by simp [haddr]
  obtain ⟨hbL, hbR⟩ := h.layout.addr_notMem
  have hkeep : ∀ d ∈ L ++ c :: R, d ≠ c → d ∈ L ++ b :: R ∧ d.addr ≠ b.addr := by
    intro d hd hne
    have hd' : d ∈ L ∨ d ∈ R := by simpa [hne] using hd
    rcases hd' with hd' | hd'
    · exact ⟨by simp [hd'], fun he => hbL ⟨d, hd', he⟩⟩
    · exact ⟨by simp [hd'], fun he => hbR ⟨d, hd', he⟩⟩
  refine ⟨hlay, hbrk, ?_, ?_, ?_, ?_, ?_⟩
  · rw [hhead, h.head, firstAddr, firstAddr, hmap]
  · rw [hend, h.last, lastAddr, lastAddr, hmap]
  · rw [hmap]
    exact h.linked.congr (fun a ha => hnext a (mem_map_addr.mp ha))
      (fun a ha => hprev a (mem_map_addr.mp ha))
  · intro d hd
    by_cases hdc : d = c
    · rw [hdc, haddr, hsize]
    · obtain ⟨hd', hne⟩ := hkeep d hd hdc
      rw [(hother d.addr (mem_heads hd') hne).1, h.size d hd']
  · intro d hd
    by_cases hdc : d = c
    · rw [hdc, haddr, hflag]
    · obtain ⟨hd', hne⟩ := hkeep d hd hdc
      rw [← h.flag d hd', Heap.isFree, Heap.isFree, (hother d.addr (mem_heads hd') hne).2]

/-- A state that agrees on the end pointers and the list headers. -/
theorem Core.congr (h : Core os s B) (hk : s'.kernel = s.kernel)
    (hhead : s'.allListHead = s.allListHead) (hend : s'.allListEnd = s.allListEnd)
    (hget : ∀ a ∈ heads B, ∀ f, f ∉ histoFields → s'.get f a = s.get f a) : Core os s' B := by
  have hmem : ∀ a ∈ B.map Block.addr, a ∈ heads B := fun a ha => mem_map_addr.mp ha
  refine ⟨hk ▸ h.layout, hk ▸ h.brk_le, hhead.trans h.head, hend.trans h.last, ?_, ?_, ?_⟩
  · exact h.linked.congr (fun a ha => hget a (hmem a ha) _ (by simp [histoFields]))
      (fun a ha => hget a (hmem a ha) _ (by simp [histoFields]))
  · exact fun b hb => (hget _ (mem_heads hb) _ (by simp [histoFields])).trans (h.size b hb)
  · intro b hb
    rw [← h.flag b hb, Heap.isFree, Heap.isFree,
      hget _ (mem_heads hb) _ (by simp [histoFields])]

/-- The histogram functions do not disturb the list. -/
theorem Core.of_histoStep (h : Core os s B) {H : Set Nat} (hH : Headers H) (hB : heads B ⊆ H)
    (hstep : HistoStep H s s') : Core os s' B := by
  refine h.congr hstep.kernel ?_ ?_ fun a ha f hf => hstep.get hH hf (hB ha)
  · obtain ⟨⟨m, fh, rfl⟩, -⟩ := hstep; rfl
  · obtain ⟨⟨m, fh, rfl⟩, -⟩ := hstep; rfl

theorem Core.setNum (h : Core os s B) (n : Nat) : Core os { s with numOfMetadatas := n } B :=
  ⟨h.layout, h.brk_le, h.head, h.last, h.linked, h.size, h.flag⟩

/-- The break may move up. -/
theorem Core.setKernel (h : Core os s B) {k : Kernel} (h1 : s.kernel.brk ≤ k.brk)
    (h2 : k.brk ≤ os.limit) : Core os { s with kernel := k } B :=
  ⟨h.layout.mono le_rfl h1, h2, h.head, h.last, h.linked, h.size, h.flag⟩

end Core

/-! ## The heap list -/

def listFields : Set Field := {.listNext, .listPrev}

/-- Only the list's end pointers and its links in the headers `H` have changed. -/
structure ListStep (H : Set Nat) (s s' : Heap) : Prop where
  shape : ∃ m hd e, s' = { s with mem := m, allListHead := hd, allListEnd := e }
  frame : SameOff (fieldBytes listFields H) s s'

namespace ListStep

variable {H : Set Nat} {s s' s'' : Heap}

theorem trans (h : ListStep H s s') (h' : ListStep H s' s'') : ListStep H s s'' := by
  obtain ⟨⟨m, hd, e, rfl⟩, hf⟩ := h
  obtain ⟨⟨m', hd', e', rfl⟩, hf'⟩ := h'
  exact ⟨⟨m', hd', e', rfl⟩, hf.trans hf'⟩

theorem put (s : Heap) {f : Field} {p : Nat} (v : Nat) (hf : f ∈ listFields) (hp : p ∈ H) :
    ListStep H s (s.put f p v) :=
  ⟨⟨_, _, _, rfl⟩, .put s v hf hp⟩

theorem ends (s : Heap) (hd e : Nat) :
    ListStep H s { s with allListHead := hd, allListEnd := e } :=
  ⟨⟨_, _, _, rfl⟩, fun _ _ => rfl⟩

theorem get (hH : Headers H) (h : ListStep H s s') {g : Field} {q : Nat}
    (hg : g ∉ listFields) (hq : q ∈ H) : s'.get g q = s.get g q :=
  h.frame.get hH hg hq

theorem kernel (h : ListStep H s s') : s'.kernel = s.kernel := by
  obtain ⟨⟨m, hd, e, rfl⟩, -⟩ := h; rfl

theorem numOfMetadatas (h : ListStep H s s') : s'.numOfMetadatas = s.numOfMetadatas := by
  obtain ⟨⟨m, hd, e, rfl⟩, -⟩ := h; rfl

theorem freeHistogram (h : ListStep H s s') : s'.freeHistogram = s.freeHistogram := by
  obtain ⟨⟨m, hd, e, rfl⟩, -⟩ := h; rfl

theorem tame (h : ListStep H s s') : Tame H s s' := by
  obtain ⟨⟨m, hd, e, rfl⟩, hf⟩ := h
  exact ⟨rfl, rfl, rfl, hf.mono (fieldBytes_subset _ _)⟩

end ListStep

section ListOps

variable {os : Os} {s : Heap} {H : Set Nat} {L R : List Block} {b c : Block} {p q n : Nat}

theorem listNext_mem : Field.listNext ∈ listFields := by simp [listFields]

theorem listPrev_mem : Field.listPrev ∈ listFields := by simp [listFields]

/-- What `add_node_list` writes after a node `q` whose successor is `n`. -/
theorem addNodeList_links (hH : Headers H) (hpH : p ∈ H) (hq : q ∈ H) (hn : n = 0 ∨ n ∈ H)
    (hpq : p ≠ q) (hpn : p ≠ n) (hnext : s.get .listNext q = n) :
    ListStep H s (addNodeList s p q) ∧
    (∀ a ∈ H, (addNodeList s p q).get .listNext a =
      if a = p then n else if a = q then p else s.get .listNext a) ∧
    (∀ a ∈ H, (addNodeList s p q).get .listPrev a =
      if a = p then q else if a = n then p else s.get .listPrev a) ∧
    (addNodeList s p q).allListHead = s.allListHead ∧
    (addNodeList s p q).allListEnd = if n = 0 then p else s.allListEnd := by
  have hH0 : ∀ a ∈ H, a ≠ 0 := fun a ha h0 => hH.zero_notMem (h0 ▸ ha)
  have hpw := hH.word p hpH
  have hqw := hH.word q hq
  have hnw : IsWord n := hn.elim (· ▸ isWord_zero) (hH.word n)
  have hq0 := hH0 q hq
  rcases hn with rfl | hn
  · have hs' : addNodeList s p q =
        { ((s.put .listPrev p q).put .listNext q p).put .listNext p 0 with allListEnd := p } := by
      simp [addNodeList, hq0, hnext, get_putWord hH, hpH]
    rw [hs']
    refine ⟨(((ListStep.put s _ listPrev_mem hpH).trans (.put _ _ listNext_mem hq)).trans
      (.put _ _ listNext_mem hpH)).trans (.ends _ s.allListHead p), ?_, ?_, rfl, by simp⟩
    · intro a ha
      change (((s.put .listPrev p q).put .listNext q p).put .listNext p 0).get .listNext a = _
      simp [get_putWord hH, hpH, hq, ha, hpw, hqw]
    · intro a ha
      change (((s.put .listPrev p q).put .listNext q p).put .listNext p 0).get .listPrev a = _
      simp [get_putWord hH, hpH, hq, ha, hpw, hqw, hH0 a ha]
  · have hs' : addNodeList s p q =
        (((s.put .listPrev p q).put .listNext q p).put .listNext p n).put .listPrev n p := by
      simp [addNodeList, hq0, hnext, get_putWord hH, hpH, hn, hH0 n hn, hnw, hpw]
    rw [hs']
    refine ⟨(((ListStep.put s _ listPrev_mem hpH).trans (.put _ _ listNext_mem hq)).trans
      (.put _ _ listNext_mem hpH)).trans (.put _ _ listPrev_mem hn), ?_, ?_, rfl,
      by simp [hH0 n hn]⟩
    · intro a ha
      simp [get_putWord hH, hpH, hq, hn, ha, hpw, hqw, hnw]
    · intro a ha
      rw [get_putWord hH _ hn ha hpw (by decide)]
      by_cases hap : a = p
      · simp [hap, hpn, get_putWord hH, hpH, hq, hpw, hqw, hnw, hpq]
      · simp [hap, get_putWord hH, hpH, hq, ha, hpw, hqw, hnw]

/-- The last address does not depend on a block that others follow. -/
theorem lastAddr_cons_eq (h : ∀ d ∈ R, d.addr ≠ 0) :
    (if firstAddr R = 0 then b.addr else lastAddr (c :: R)) = lastAddr (b :: R) := by
  cases R with
  | nil => rfl
  | cons d R =>
      have hd : firstAddr (d :: R) ≠ 0 := h d (by simp)
      rw [if_neg hd, lastAddr_cons_cons, lastAddr_cons_cons]

/-- **`add_node_list`** behind block `b`. -/
theorem Core.insertAfter (h : Core os s (L ++ b :: R))
    (hH : Headers (insert c.addr (heads (L ++ b :: R)))) (hc : c.addr ∉ heads (L ++ b :: R))
    (hlay : Layout os.brk0 (L ++ b :: c :: R) s.kernel.brk)
    (hsize : s.get .size c.addr = c.size) (hflag : s.isFree c.addr = c.free) :
    Core os (addNodeList s c.addr b.addr) (L ++ b :: c :: R) ∧
      ListStep (insert c.addr (heads (L ++ b :: R))) s (addNodeList s c.addr b.addr) := by
  have hb : b.addr ∈ heads (L ++ b :: R) := mem_heads (by simp)
  have hRsub : heads R ⊆ heads (L ++ b :: R) := fun a ha =>
    mem_heads_append.mpr (.inr (mem_heads_cons.mpr (.inr ha)))
  have hcH : c.addr ∈ insert c.addr (heads (L ++ b :: R)) := Set.mem_insert _ _
  have hc0 : c.addr ≠ 0 := fun h0 => hH.zero_notMem (h0 ▸ hcH)
  have hn : firstAddr R = 0 ∨ firstAddr R ∈ insert c.addr (heads (L ++ b :: R)) :=
    (firstAddr_mem_or R).imp And.left fun hr => Set.mem_insert_of_mem _ (hRsub hr)
  have hcn : c.addr ≠ firstAddr R := by
    rcases firstAddr_mem_or R with ⟨h0, -⟩ | hr
    · exact h0 ▸ hc0
    · exact fun he => hc (hRsub (he ▸ hr))
  obtain ⟨hstep, hN, hP, hhd, hend⟩ := addNodeList_links hH hcH (Set.mem_insert_of_mem _ hb) hn
    (fun he => hc (he ▸ hb)) hcn h.links.2
  have hkeep : ∀ d ∈ L ++ b :: c :: R, d ≠ c → d ∈ L ++ b :: R := by
    intro d hd hdc
    simpa [hdc] using hd
  refine ⟨⟨by rw [hstep.kernel]; exact hlay, by rw [hstep.kernel]; exact h.brk_le,
    ?_, ?_, ?_, ?_, ?_⟩, hstep⟩
  · rw [hhd, h.head, firstAddr_append_cons L R b, firstAddr_append_cons L (c :: R) b]
  · rw [hend, h.last, lastAddr_append_cons, lastAddr_append_cons, lastAddr_cons_cons]
    refine lastAddr_cons_eq fun d hd h0 => hH.zero_notMem ?_
    exact h0 ▸ Set.mem_insert_of_mem _ (hRsub (mem_heads hd))
  · -- `l₁` is everything up to `b`, so its last node is `b`
    have hl := h.linked
    have hcut : (L ++ b :: R).map Block.addr =
        (L.map Block.addr ++ [b.addr]) ++ R.map Block.addr := by simp
    have hcut' : (L ++ b :: c :: R).map Block.addr =
        (L.map Block.addr ++ [b.addr]) ++ c.addr :: R.map Block.addr := by simp
    have hsub : ∀ a ∈ (L.map Block.addr ++ [b.addr]) ++ R.map Block.addr,
        a ∈ heads (L ++ b :: R) := fun a ha => mem_map_addr.mp (hcut ▸ ha)
    have h0 : 0 ∉ (L.map Block.addr ++ [b.addr]) ++ R.map Block.addr := fun h0 =>
      h.headers.zero_notMem (hsub 0 h0)
    have hsub' : ∀ a ∈ (L.map Block.addr ++ [b.addr]) ++ c.addr :: R.map Block.addr,
        a ∈ insert c.addr (heads (L ++ b :: R)) := by
      intro a ha
      by_cases hac : a = c.addr
      · exact hac ▸ hcH
      · exact Set.mem_insert_of_mem _ (hsub a (by
          simp only [List.mem_append, List.mem_cons, hac, false_or] at ha ⊢
          exact ha))
    rw [hcut] at hl
    rw [hcut']
    refine hl.insert (hcut ▸ h.layout.nodup) (fun hm => hc (hsub _ hm))
      (fun h1 => h0 (List.mem_append_right _ h1)) (fun h1 => h0 (List.mem_append_left _ h1)) ?_ ?_
    · intro a ha
      rw [List.getLastD_concat]
      exact hN a (hsub' a ha)
    · intro a ha
      rw [List.getLastD_concat]
      exact hP a (hsub' a ha)
  · intro d hd
    by_cases hdc : d = c
    · rw [hdc, hstep.get hH (by simp [listFields]) hcH, hsize]
    · have hd' := hkeep d hd hdc
      rw [hstep.get hH (by simp [listFields]) (Set.mem_insert_of_mem _ (mem_heads hd')),
        h.size d hd']
  · intro d hd
    by_cases hdc : d = c
    · rw [hdc, Heap.isFree, hstep.get hH (by simp [listFields]) hcH]
      exact hflag
    · have hd' := hkeep d hd hdc
      rw [Heap.isFree, hstep.get hH (by simp [listFields])
        (Set.mem_insert_of_mem _ (mem_heads hd'))]
      exact h.flag d hd'

/-- What `removeNodeList` writes for a node `p` between `q` and `n`. -/
theorem removeNodeList_links (hH : Headers H) (hpH : p ∈ H) (hq : q ∈ H) (hn : n = 0 ∨ n ∈ H)
    (hprev : s.get .listPrev p = q) (hnext : s.get .listNext p = n) :
    ListStep H s (removeNodeList s p) ∧
    (∀ a ∈ H, a ≠ p → (removeNodeList s p).get .listNext a =
      if a = q then n else s.get .listNext a) ∧
    (∀ a ∈ H, a ≠ p → (removeNodeList s p).get .listPrev a =
      if a = n then q else s.get .listPrev a) ∧
    (removeNodeList s p).allListHead = s.allListHead ∧
    (removeNodeList s p).allListEnd = if n = 0 then q else s.allListEnd := by
  have hH0 : ∀ a ∈ H, a ≠ 0 := fun a ha h0 => hH.zero_notMem (h0 ▸ ha)
  have hqw := hH.word q hq
  have hnw : IsWord n := hn.elim (· ▸ isWord_zero) (hH.word n)
  rcases hn with rfl | hn
  · have hs' : removeNodeList s p =
        ({ s.put .listNext q 0 with allListEnd := q }.put .listPrev p 0).put .listNext p 0 := by
      simp [removeNodeList, hprev, hnext]
    rw [hs']
    refine ⟨(((ListStep.put s _ listNext_mem hq).trans (.ends _ s.allListHead q)).trans
      (.put _ _ listPrev_mem hpH)).trans (.put _ _ listNext_mem hpH), ?_, ?_, rfl, by simp⟩
    · intro a ha hap
      rw [get_putWord hH _ hpH ha isWord_zero (by decide),
        get_putWord hH _ hpH ha isWord_zero (by decide)]
      simp only [hap, false_and, if_false]
      change (s.put .listNext q 0).get .listNext a = _
      simp [get_putWord hH, hq, ha]
    · intro a ha hap
      rw [get_putWord hH _ hpH ha isWord_zero (by decide),
        get_putWord hH _ hpH ha isWord_zero (by decide)]
      simp only [hap, false_and, if_false]
      change (s.put .listNext q 0).get .listPrev a = _
      simp [get_putWord hH, hq, ha, hH0 a ha]
  · have hs' : removeNodeList s p =
        (((s.put .listNext q n).put .listPrev n q).put .listPrev p 0).put .listNext p 0 := by
      simp [removeNodeList, hprev, hnext, hH0 n hn]
    rw [hs']
    refine ⟨(((ListStep.put s _ listNext_mem hq).trans (.put _ _ listPrev_mem hn)).trans
      (.put _ _ listPrev_mem hpH)).trans (.put _ _ listNext_mem hpH), ?_, ?_, rfl,
      by simp [hH0 n hn]⟩
    · intro a ha hap
      simp [get_putWord hH, hpH, hq, hn, ha, hap, hqw, hnw]
    · intro a ha hap
      simp [get_putWord hH, hpH, hq, hn, ha, hap, hqw, hnw]

/-- **Unlinking** a block that has a left neighbour. Its bytes become a gap. -/
theorem Core.unlink (h : Core os s (L ++ b :: c :: R)) :
    Core os (removeNodeList s c.addr) (L ++ b :: R) ∧
      ListStep (heads (L ++ b :: c :: R)) s (removeNodeList s c.addr) := by
  have hH := h.headers
  have hc : c.addr ∈ heads (L ++ b :: c :: R) := mem_heads (by simp)
  have hb : b.addr ∈ heads (L ++ b :: c :: R) := mem_heads (by simp)
  have hRsub : heads R ⊆ heads (L ++ b :: c :: R) := fun a ha =>
    mem_heads_append.mpr (.inr (mem_heads_cons.mpr (.inr (mem_heads_cons.mpr (.inr ha)))))
  have hn : firstAddr R = 0 ∨ firstAddr R ∈ heads (L ++ b :: c :: R) :=
    (firstAddr_mem_or R).imp And.left fun hr => hRsub hr
  have hcut : L ++ b :: c :: R = (L ++ [b]) ++ c :: R := by simp
  have hlinks : s.get .listPrev c.addr = b.addr ∧ s.get .listNext c.addr = firstAddr R := by
    rw [hcut] at h
    exact lastAddr_concat L b ▸ h.links
  obtain ⟨hstep, hN, hP, hhd, hend⟩ := removeNodeList_links hH hc hb hn hlinks.1 hlinks.2
  have hsub : ∀ d ∈ L ++ b :: R, d ∈ L ++ b :: c :: R := by
    intro d hd
    simp only [List.mem_append, List.mem_cons] at hd ⊢
    exact hd.imp_right (Or.imp_right Or.inr)
  have hlay : Layout os.brk0 (L ++ b :: R) s.kernel.brk := by
    obtain ⟨mid, h1, h2, h3, h4⟩ := Layout.middle_iff.mp h.layout
    exact Layout.middle_iff.mpr
      ⟨mid, h1, h2, h4.mono (h3.trans (addr_lt_fin c).le) (Nat.le_refl _)⟩
  refine ⟨⟨by rw [hstep.kernel]; exact hlay, by rw [hstep.kernel]; exact h.brk_le,
    ?_, ?_, ?_, ?_, ?_⟩, hstep⟩
  · rw [hhd, h.head, firstAddr_append_cons L R b, firstAddr_append_cons L (c :: R) b]
  · rw [hend, h.last, lastAddr_append_cons, lastAddr_append_cons, lastAddr_cons_cons]
    exact lastAddr_cons_eq fun d hd h0 => hH.zero_notMem (h0 ▸ hRsub (mem_heads hd))
  · have hl := h.linked
    have hmap : (L ++ b :: c :: R).map Block.addr =
        (L.map Block.addr ++ [b.addr]) ++ c.addr :: R.map Block.addr := by simp
    have hmap' : (L ++ b :: R).map Block.addr =
        (L.map Block.addr ++ [b.addr]) ++ R.map Block.addr := by simp
    have hmem : ∀ a ∈ (L.map Block.addr ++ [b.addr]) ++ R.map Block.addr,
        a ∈ heads (L ++ b :: c :: R) := fun a ha => by
      obtain ⟨d, hd, rfl⟩ := List.mem_map.mp (hmap' ▸ ha)
      exact mem_heads (hsub d hd)
    have hnd : ((L.map Block.addr ++ [b.addr]) ++ c.addr :: R.map Block.addr).Nodup :=
      hmap ▸ h.layout.nodup
    have hne : ∀ a ∈ (L.map Block.addr ++ [b.addr]) ++ R.map Block.addr, a ≠ c.addr :=
      fun a ha he => (List.nodup_cons.mp (List.nodup_middle.mp hnd)).1 (he ▸ ha)
    have h0 : 0 ∉ (L.map Block.addr ++ [b.addr]) ++ R.map Block.addr := fun h0 =>
      hH.zero_notMem (hmem 0 h0)
    rw [hmap] at hl
    rw [hmap']
    refine hl.unlink hnd (fun h1 => h0 (List.mem_append_right _ h1))
      (fun h1 => h0 (List.mem_append_left _ h1)) ?_ ?_
    · intro a ha
      rw [List.getLastD_concat]
      exact hN a (hmem a ha) (hne a ha)
    · intro a ha
      rw [List.getLastD_concat]
      exact hP a (hmem a ha) (hne a ha)
  · intro d hd
    rw [hstep.get hH (by simp [listFields]) (mem_heads (hsub d hd)), h.size d (hsub d hd)]
  · intro d hd
    rw [Heap.isFree, hstep.get hH (by simp [listFields]) (mem_heads (hsub d hd))]
    exact h.flag d (hsub d hd)

end ListOps

/-- The histogram sees only sizes and its own links. -/
theorem Binned.congr {s s' : Heap} {S : Set Nat} (hb : Binned s S)
    (hfh : s'.freeHistogram = s.freeHistogram)
    (hget : ∀ a ∈ S, ∀ f, f ∈ insert Field.size histoFields → s'.get f a = s.get f a) :
    Binned s' S := by
  intro i
  obtain ⟨l, hl⟩ := hb i
  refine ⟨l, hl.congr (by rw [hfh]) ?_ ?_ ?_ ?_⟩
  · exact fun a ha => hget a (hl.mem_set ha) _ (by simp [histoFields])
  · exact fun a ha => hget a (hl.mem_set ha) _ (by simp [histoFields])
  · exact fun a ha => hget a (hl.mem_set ha) _ (by simp)
  · intro a
    rw [hl.mem a]
    exact and_congr_right fun ha => by rw [hget a ha _ (by simp)]

theorem Binned.setNum {s : Heap} {S : Set Nat} (h : Binned s S) (n : Nat) :
    Binned { s with numOfMetadatas := n } S := by
  intro i
  obtain ⟨l, hl⟩ := h i
  exact ⟨l, hl.head, hl.linked, hl.nodup, hl.sorted, hl.mem⟩

theorem Rep.setKernel {os : Os} {s : Heap} {B : List Block} (h : Rep os s B) {k : Kernel}
    (h1 : s.kernel.brk ≤ k.brk) (h2 : k.brk ≤ os.limit) : Rep os { s with kernel := k } B :=
  ⟨h.core.setKernel h1 h2, h.small, h.binned.congr rfl fun _ _ _ _ => rfl⟩

theorem Rep.setNum {os : Os} {s : Heap} {B : List Block} (h : Rep os s B) (n : Nat) :
    Rep os { s with numOfMetadatas := n } B :=
  ⟨h.core.setNum n, h.small, h.binned.setNum n⟩

theorem Rep.notMem_freeHeads {os : Os} {s : Heap} {B : List Block} {b : Block}
    (h : Rep os s B) (hb : b ∈ B) (hf : b.free = false) : b.addr ∉ freeHeads B := by
  rintro ⟨c, hc, hcf, he⟩
  rw [h.core.layout.eq_of_addr hc hb he, hf] at hcf
  cases hcf

/-! ## Moves -/

section Moves

variable {os : Os} {s : Heap} {L R B : List Block} {b c : Block}

/-- What a flag write does to the headers of the list. -/
theorem Core.setFree (h : Core os s (L ++ b :: R)) (f : Bool) :
    Core os (s.put .isFree b.addr f.toNat) (L ++ { b with free := f } :: R) := by
  have hH := h.headers
  have hb : b.addr ∈ heads (L ++ b :: R) := mem_heads (by simp)
  have hf : f.toNat ≤ 1 := f.toNat_le
  refine h.setBlock rfl rfl rfl (h.layout.replace rfl (Nat.le_refl _)) h.brk_le ?_ ?_ ?_ ?_ ?_
  · exact fun a ha => by simp [get_putFlag hH s hb ha hf]
  · exact fun a ha => by simp [get_putFlag hH s hb ha hf]
  · exact fun a ha hne => by simp [get_putFlag hH s hb ha hf, hne]
  · simp [get_putFlag hH s hb hb hf, h.size b (by simp)]
  · cases f <;> simp [Heap.isFree, get_putFlag hH s hb hb]

theorem Binned.setFree {S : Set Nat} {p : Nat} (hb : Binned s S) {H : Set Nat} (hH : Headers H)
    (hS : S ⊆ H) (hp : p ∈ H) (f : Bool) : Binned (s.put .isFree p f.toNat) S := by
  refine hb.congr rfl fun a ha g hg => ?_
  have hgf : g ≠ .isFree := by
    rintro rfl
    simp [histoFields] at hg
  simp [get_putFlag hH s hp (hS ha) f.toNat_le, hgf]

/-- **Mark free**: `is_free = true` and onto the histogram. -/
theorem Rep.markFree (h : Rep os s (L ++ b :: R)) (hb : b.free = false) :
    ∃ s', addNodeHisto (s.put .isFree b.addr 1) b.addr = .ok s' ∧
      Rep os s' (L ++ { b with free := true } :: R) ∧
      Tame (heads (L ++ b :: R)) s s' ∧ s'.numOfMetadatas = s.numOfMetadatas := by
  have hH := h.core.headers
  have hbH : b.addr ∈ heads (L ++ b :: R) := mem_heads (by simp)
  have hbS : b.addr ∉ freeHeads (L ++ b :: R) := h.notMem_freeHeads (by simp) hb
  have hcore := h.core.setFree true
  have hsize : (s.put .isFree b.addr 1).get .size b.addr < mmapSize := by
    have := hcore.size { b with free := true } (by simp)
    exact this ▸ h.small b (by simp)
  obtain ⟨s', hrun, hstep, hbin⟩ := addNodeHisto_spec hH freeHeads_subset hbH hbS hsize
    (h.binned.setFree hH freeHeads_subset hbH true)
  refine ⟨s', hrun,
    ⟨hcore.of_histoStep hH (heads_replace b { b with free := true } rfl).le hstep, ?_, ?_⟩, ?_, ?_⟩
  · exact forall_mem_replace h.small (h.small b (by simp))
  · rw [freeHeads_mark b { b with free := true } rfl rfl]
    exact hbin
  · exact (Tame.put s _ _ hbH).trans hstep.tame
  · obtain ⟨⟨m, fh, rfl⟩, -⟩ := hstep; rfl

/-- **Take**: off the histogram and `is_free = false`. -/
theorem Rep.take (h : Rep os s (L ++ b :: R)) (hb : b.free = true) :
    ∃ s', removeNodeHisto s b.addr = .ok s' ∧
      Rep os (s'.put .isFree b.addr 0) (L ++ { b with free := false } :: R) ∧
      Tame (heads (L ++ b :: R)) s (s'.put .isFree b.addr 0) ∧
      s'.numOfMetadatas = s.numOfMetadatas := by
  have hH := h.core.headers
  have hbH : b.addr ∈ heads (L ++ b :: R) := mem_heads (by simp)
  have hbS : b.addr ∈ freeHeads (L ++ b :: R) := ⟨b, by simp, hb, rfl⟩
  have hsize : s.get .size b.addr < mmapSize := h.core.size b (by simp) ▸ h.small b (by simp)
  obtain ⟨s', hrun, hstep, hbin⟩ := removeNodeHisto_spec hH freeHeads_subset hbS
    ((h.core.flag b (by simp)).trans hb) hsize h.binned
  refine ⟨s', hrun, ⟨(h.core.of_histoStep hH le_rfl hstep).setFree false, ?_, ?_⟩, ?_, ?_⟩
  · exact forall_mem_replace h.small (h.small b (by simp))
  · rw [freeHeads_take h.core.layout rfl]
    exact hbin.setFree hH (Set.sdiff_subset.trans freeHeads_subset) hbH false
  · exact hstep.tame.trans (Tame.put s' _ _ hbH)
  · obtain ⟨⟨m, fh, rfl⟩, -⟩ := hstep; rfl

/-- A size write. -/
theorem Core.resize (h : Core os s (L ++ b :: R)) {n : Nat} (hn : IsWord n)
    (hlay : Layout os.brk0 (L ++ { b with size := n } :: R) s.kernel.brk) :
    Core os (s.put .size b.addr n) (L ++ { b with size := n } :: R) := by
  have hH := h.headers
  have hb : b.addr ∈ heads (L ++ b :: R) := mem_heads (by simp)
  refine h.setBlock rfl rfl rfl hlay h.brk_le ?_ ?_ ?_ ?_ ?_
  · exact fun a ha => by simp [get_putWord hH s hb ha hn]
  · exact fun a ha => by simp [get_putWord hH s hb ha hn]
  · exact fun a ha hne => by simp [get_putWord hH s hb ha hn, hne]
  · simp [get_putWord hH s hb hb hn]
  · simpa [Heap.isFree, get_putWord hH s hb hb hn] using h.flag b (by simp)

/-- A header that is not on the histogram may be written freely. -/
theorem Binned.put_notMem {S H : Set Nat} {p : Nat} (hb : Binned s S) (hH : Headers H)
    (hS : S ⊆ H) (hp : p ∈ H) (hpS : p ∉ S) (f : Field) (v : Nat) :
    Binned (s.put f p v) S := by
  refine hb.congr rfl fun a ha g _ => get_put_apart s ?_
  exact hH.apart p hp a (hS ha) fun he => hpS (he ▸ ha)

theorem Binned.of_listStep {S H : Set Nat} {s' : Heap} (hb : Binned s S) (hH : Headers H)
    (hS : S ⊆ H) (hstep : ListStep H s s') : Binned s' S := by
  refine hb.congr hstep.freeHistogram fun a ha g hg => hstep.get hH ?_ (hS ha)
  rintro (rfl | rfl) <;> simp [histoFields] at hg

/-- The header at `p` keeps its size and its flag. -/
def KeepsBlock (p : Nat) (s s' : Heap) : Prop :=
  s'.get .size p = s.get .size p ∧ s'.isFree p = s.isFree p

/-- Everything `unite_right` does before the merged block goes back on the
histogram. The header of `c` goes stale. -/
theorem Rep.unite_prefix (h : Rep os s (L ++ b :: c :: R)) (hb : b.free = true)
    (hc : c.free = true) :
    ∃ s', uniteRight s b.addr = (addNodeHisto s' b.addr >>= fun t =>
        .ok { t with numOfMetadatas := subT t.numOfMetadatas 1 }) ∧
      Core os s' (L ++ ⟨b.addr, b.size + (c.size + metaSize), true⟩ :: R) ∧
      Binned s' ((freeHeads (L ++ b :: c :: R) \ {c.addr}) \ {b.addr}) ∧
      Tame (heads (L ++ b :: c :: R)) s s' ∧ s'.numOfMetadatas = s.numOfMetadatas ∧
      KeepsBlock c.addr s s' := by
  have hH := h.core.headers
  have hbH : b.addr ∈ heads (L ++ b :: c :: R) := mem_heads (by simp)
  have hcH : c.addr ∈ heads (L ++ b :: c :: R) := mem_heads (by simp)
  have hSH : freeHeads (L ++ b :: c :: R) ⊆ heads (L ++ b :: c :: R) := freeHeads_subset
  have hbc : b.addr ≠ c.addr := fun he =>
    h.core.layout.addr_notMem.2 (mem_heads_cons.mpr (.inl he))
  -- both off the histogram
  obtain ⟨s1, hrun1, hstep1, hbin1⟩ := removeNodeHisto_spec hH hSH
    (p := c.addr) ⟨c, by simp, hc, rfl⟩ ((h.core.flag c (by simp)).trans hc)
    (by rw [h.core.size c (by simp)]; exact h.small c (by simp)) h.binned
  have hcore1 := h.core.of_histoStep hH le_rfl hstep1
  obtain ⟨s2, hrun2, hstep2, hbin2⟩ := removeNodeHisto_spec hH
    (Set.sdiff_subset.trans hSH) (p := b.addr) ⟨⟨b, by simp, hb, rfl⟩, hbc⟩
    ((hcore1.flag b (by simp)).trans hb)
    (by rw [hcore1.size b (by simp)]; exact h.small b (by simp)) hbin1
  have hcore2 := hcore1.of_histoStep hH le_rfl hstep2
  -- `c` off the list; its stale header still has its size
  obtain ⟨hcore3, hstep3⟩ := hcore2.unlink
  have hSH2 : (freeHeads (L ++ b :: c :: R) \ {c.addr}) \ {b.addr} ⊆
      heads (L ++ b :: c :: R) := (Set.sdiff_subset.trans Set.sdiff_subset).trans hSH
  have hbin3 := hbin2.of_listStep hH hSH2 hstep3
  have hsize3 : (removeNodeList s2 c.addr).get .size c.addr = c.size := by
    rw [hstep3.get hH (by simp [listFields]) hcH, hcore2.size c (by simp)]
  have hbsize3 : (removeNodeList s2 c.addr).get .size b.addr = b.size :=
    hcore3.size b (by simp)
  have hfin := h.core.fin_le (b := c) (by simp)
  have hlt := h.core.brk_lt
  obtain ⟨mid, hl1, hl2, hl3, hl4⟩ := Layout.middle_iff.mp h.core.layout
  have hmerge : b.addr + metaSize + (b.size + (c.size + metaSize)) ≤ c.fin := by
    unfold Block.fin at hl3 ⊢
    omega
  have hword : IsWord (b.size + (c.size + metaSize)) := by
    unfold IsWord
    omega
  have hkernel : (removeNodeList s2 c.addr).kernel = s.kernel := by
    rw [hstep3.kernel, hstep2.kernel, hstep1.kernel]
  have hcore4 := hcore3.resize hword (by
    rw [hkernel]
    exact h.core.layout.merge rfl hmerge)
  refine ⟨_, ?_, hcore4.setFree true, ?_, ?_, ?_, ?_⟩
  · have hb0 : b.addr ≠ 0 := fun h0 => hH.zero_notMem (h0 ▸ hbH)
    have hc0 : c.addr ≠ 0 := fun h0 => hH.zero_notMem (h0 ▸ hcH)
    have hnext : s.get .listNext b.addr = c.addr := h.core.links.2
    have hbf : s.isFree b.addr = true := (h.core.flag b (by simp)).trans hb
    have hcf : s.isFree c.addr = true := (h.core.flag c (by simp)).trans hc
    simp [uniteRight, hb0, hc0, hnext, hbf, hcf, hrun1, hrun2, hsize3, hbsize3]
  · have hnot : b.addr ∉ (freeHeads (L ++ b :: c :: R) \ {c.addr}) \ {b.addr} :=
      fun hm => hm.2 rfl
    exact (hbin3.put_notMem hH hSH2 hbH hnot _ _).put_notMem hH hSH2 hbH hnot _ _
  · exact ((hstep1.tame.trans hstep2.tame).trans hstep3.tame).trans
      ((Tame.put _ _ _ hbH).trans (Tame.put _ _ _ hbH))
  · obtain ⟨⟨m1, f1, rfl⟩, -⟩ := hstep1
    obtain ⟨⟨m2, f2, rfl⟩, -⟩ := hstep2
    obtain ⟨⟨m3, a3, e3, he3⟩, -⟩ := hstep3
    rw [put_numOfMetadatas, put_numOfMetadatas, he3]
  · have hstale : ∀ f, f ∉ histoFields → f ∉ listFields →
        (((removeNodeList s2 c.addr).put .size b.addr (b.size + (c.size + metaSize))).put
          .isFree b.addr 1).get f c.addr = s.get f c.addr := by
      intro f hf hf'
      have hapart := hH.apart b.addr hbH c.addr hcH hbc
      rw [get_put_apart _ hapart, get_put_apart _ hapart, hstep3.get hH hf' hcH,
        hstep2.get hH hf hcH, hstep1.get hH hf hcH]
    refine ⟨hstale .size (by simp [histoFields]) (by simp [listFields]), ?_⟩
    rw [Heap.isFree, Heap.isFree]
    exact congrArg (· != 0) (hstale .isFree (by simp [histoFields]) (by simp [listFields]))

/-- **Unite**: two free neighbours become one free block. -/
theorem Rep.unite (h : Rep os s (L ++ b :: c :: R)) (hb : b.free = true) (hc : c.free = true)
    (hsize : b.size + (c.size + metaSize) < mmapSize) :
    ∃ s', uniteRight s b.addr = .ok s' ∧
      Rep os s' (L ++ ⟨b.addr, b.size + (c.size + metaSize), true⟩ :: R) ∧
      Tame (heads (L ++ b :: c :: R)) s s' ∧
      s'.numOfMetadatas = subT s.numOfMetadatas 1 ∧ KeepsBlock c.addr s s' := by
  obtain ⟨s1, hrun, hcore, hbin, htame, hnum, hstale⟩ := h.unite_prefix hb hc
  have hH := h.core.headers
  have hbH : b.addr ∈ heads (L ++ b :: c :: R) := mem_heads (by simp)
  have hsub : heads (L ++ ⟨b.addr, b.size + (c.size + metaSize), true⟩ :: R) ⊆
      heads (L ++ b :: c :: R) := by
    intro a ha
    simp only [mem_heads_append, mem_heads_cons] at ha ⊢
    exact ha.imp_right (Or.imp_right Or.inr)
  have hnot : b.addr ∉ (freeHeads (L ++ b :: c :: R) \ {c.addr}) \ {b.addr} :=
    fun hm => hm.2 rfl
  obtain ⟨s2, hadd, hstep, hbin2⟩ := addNodeHisto_spec hH
    ((Set.sdiff_subset.trans Set.sdiff_subset).trans freeHeads_subset) hbH hnot
    (by rw [hcore.size _ (List.mem_append_right _ (List.mem_cons_self))]; exact hsize) hbin
  refine ⟨_, by rw [hrun, hadd, ok_bind], ⟨?_, ?_, ?_⟩, ?_, ?_, ?_⟩
  · exact (hcore.of_histoStep hH hsub hstep).setNum _
  · exact forall_mem_replace (b := b) (fun d hd => h.small d (by
      simp only [List.mem_append, List.mem_cons] at hd ⊢
      exact hd.imp_right (Or.imp_right Or.inr))) hsize
  · rw [freeHeads_unite ⟨b.addr, b.size + (c.size + metaSize), true⟩ h.core.layout rfl rfl]
    exact hbin2.setNum _
  · exact (htame.trans hstep.tame).setNum _
  · rw [hstep.numOfMetadatas, hnum]
  · have hcH : c.addr ∈ heads (L ++ b :: c :: R) := mem_heads (by simp)
    refine ⟨?_, ?_⟩
    · rw [get_setNum, hstep.get hH (by simp [histoFields]) hcH, hstale.1]
    · rw [← hstale.2, Heap.isFree, Heap.isFree, get_setNum,
        hstep.get hH (by simp [histoFields]) hcH]

/-- A merged block of `MMAP_SIZE` bytes or more indexes past the histogram. -/
theorem Rep.unite_error (h : Rep os s (L ++ b :: c :: R)) (hb : b.free = true)
    (hc : c.free = true) (hsize : mmapSize ≤ b.size + (c.size + metaSize)) :
    uniteRight s b.addr = .error .addIndex := by
  obtain ⟨s1, hrun, hcore, -, -, -, -⟩ := h.unite_prefix hb hc
  have hb0 : b.addr ≠ 0 := fun h0 =>
    h.core.headers.zero_notMem (h0 ▸ mem_heads (b := b) (by simp))
  rw [hrun, addNodeHisto_error hb0
    (by rw [hcore.size _ (List.mem_append_right _ (List.mem_cons_self))]; exact hsize)]
  rfl

/-- The right neighbour of `b` is free. -/
def freeFirst : List Block → Bool
  | [] => false
  | c :: _ => c.free

/-- Nothing to unite. -/
theorem Rep.unite_noop (h : Rep os s (L ++ b :: R)) (hno : b.free = false ∨ freeFirst R = false) :
    uniteRight s b.addr = .ok s := by
  have hbf : s.isFree b.addr = b.free := h.core.flag b (by simp)
  rcases hno with hno | hno
  · simp [uniteRight, hbf, hno]
  · have hnext := h.core.links.2
    cases R with
    | nil => simp [uniteRight, hnext]
    | cons c R =>
        have hcf : s.isFree c.addr = false := (h.core.flag c (by simp)).trans hno
        simp only [firstAddr_cons] at hnext
        simp [uniteRight, hnext, hcf]

/-- A header placed inside the payload of `b` is clear of the list. -/
theorem Core.headers_insert (h : Core os s (L ++ b :: R)) {n : Nat} (h1 : b.payload ≤ n)
    (h2 : n + metaSize ≤ b.fin) : Headers (insert n (heads (L ++ b :: R))) := by
  have hb : b ∈ L ++ b :: R := by simp
  have hfin := h.fin_le hb
  have hlt := h.brk_lt
  have hpay := addr_lt_payload b
  refine h.headers.insert (by omega) (by unfold IsWord; omega) ?_
  rintro _ ⟨c, hc, rfl⟩
  by_cases hcb : c = b
  · subst hcb
    exact .inl h1
  · have := payload_le_fin c
    unfold Block.payload at this h1
    have := h.layout.disjoint hc hb hcb
    omega

/-- A header outside the list may be written freely. -/
theorem Core.put_outside (h : Core os s B) {n : Nat} (hH : Headers (insert n (heads B)))
    (hn : n ∉ heads B) (f : Field) (v : Nat) : Core os (s.put f n v) B := by
  refine h.congr rfl rfl rfl fun a ha g _ => get_put_apart s ?_
  exact hH.apart n (Set.mem_insert _ _) a (Set.mem_insert_of_mem _ ha) fun he => hn (he ▸ ha)

/-- Both parts of the header of the free remainder, before it is linked. -/
theorem Core.placeMetadata_outside (h : Core os s B) {n v : Nat}
    (hH : Headers (insert n (heads B))) (hn : n ∉ heads B) (hv : IsWord v) :
    Core os (placeMetadata s n true v) B ∧ (placeMetadata s n true v).get .size n = v ∧
      (placeMetadata s n true v).isFree n = true := by
  have hnH : n ∈ insert n (heads B) := Set.mem_insert _ _
  refine ⟨(h.put_outside hH hn _ _).put_outside hH hn _ _, ?_, ?_⟩
  · simp [placeMetadata, get_putWord hH, hnH, hv]
  · simp [placeMetadata, Heap.isFree, get_putWord hH, get_putFlag hH, hnH, hv]

/-- The header of the allocated part. -/
theorem Core.placeMetadata_block (h : Core os s (L ++ b :: R)) {v : Nat} (hv : v ≤ b.size) :
    Core os (placeMetadata s b.addr false v) (L ++ ⟨b.addr, v, false⟩ :: R) := by
  have hfin := h.fin_le (b := b) (by simp)
  have hlt := h.brk_lt
  unfold Block.fin at hfin
  refine (h.setFree false).resize (b := { b with free := false }) (by unfold IsWord; omega) ?_
  refine h.layout.replace rfl ?_
  unfold Block.fin
  exact Nat.add_le_add_left hv _

/-- `remove_node_histo` on a block of the list that may or may not be free. -/
theorem Core.removeNodeHisto (h : Core os s B) {H S : Set Nat} (hH : Headers H) (hSH : S ⊆ H)
    (hbin : Binned s S) (hb : b ∈ B) (hsmall : b.size < mmapSize)
    (hmem : b.free = true ↔ b.addr ∈ S) :
    ∃ s', Malloc.removeNodeHisto s b.addr = .ok s' ∧ HistoStep H s s' ∧
      Binned s' (S \ {b.addr}) := by
  cases hbf : b.free with
  | true =>
      exact removeNodeHisto_spec hH hSH (hmem.mp hbf) ((h.flag b hb).trans hbf)
        (by rw [h.size b hb]; exact hsmall) hbin
  | false =>
      have hnot : b.addr ∉ S := fun hm => by simp [hmem.mpr hm] at hbf
      refine ⟨s, removeNodeHisto_of_not_free ((h.flag b hb).trans hbf), .refl s, ?_⟩
      rw [Set.sdiff_singleton_eq_self hnot]
      exact hbin

theorem mem_freeHeads_iff {lo hi : Nat} (h : Layout lo B hi) (hb : b ∈ B) :
    b.addr ∈ freeHeads B ↔ b.free = true := by
  constructor
  · rintro ⟨c, hc, hcf, he⟩
    rw [← h.eq_of_addr hc hb he]
    exact hcf
  · exact fun hf => ⟨b, hb, hf, rfl⟩

/-- **Split**: the front of a block, free or not, becomes an allocated block
of `r` bytes and the rest a free block. -/
theorem Rep.split (h : Rep os s (L ++ b :: R)) {r : Nat} (hr : r + metaSize ≤ b.size) :
    ∃ s', splitBlock s b.addr r = .ok s' ∧
      Rep os s' (L ++ ⟨b.addr, r, false⟩ ::
        ⟨b.addr + metaSize + r, b.size - r - metaSize, true⟩ :: R) ∧
      Tame (insert (b.addr + metaSize + r) (heads (L ++ b :: R))) s s' ∧
      s'.numOfMetadatas = s.numOfMetadatas + 1 := by
  have hb : b ∈ L ++ b :: R := by simp
  have hms : metaSize = 48 := rfl
  have hbsmall := h.small b hb
  have hfin := h.core.fin_le hb
  have hlt := h.core.brk_lt
  unfold Block.fin at hfin
  obtain ⟨n, hn⟩ : ∃ n, n = b.addr + metaSize + r := ⟨_, rfl⟩
  obtain ⟨v, hv⟩ : ∃ v, v = b.size - r - metaSize := ⟨_, rfl⟩
  have hH := h.core.headers_insert (n := n)
    (by unfold Block.payload; omega) (by unfold Block.fin; omega)
  have hnb : n ≠ b.addr := by omega
  have hnot : n ∉ heads (L ++ b :: R) := by
    rintro ⟨c, hc, hcn⟩
    have hcb : c ≠ b := fun he => hnb (by rw [← hcn, he])
    have := h.core.layout.disjoint hc hb hcb
    unfold Block.fin at this
    omega
  have hnH : n ∈ insert n (heads (L ++ b :: R)) := Set.mem_insert _ _
  have hbH : b.addr ∈ insert n (heads (L ++ b :: R)) := Set.mem_insert_of_mem _ (mem_heads hb)
  have hSH : freeHeads (L ++ b :: R) ⊆ insert n (heads (L ++ b :: R)) :=
    freeHeads_subset.trans (Set.subset_insert _ _)
  have hnS : n ∉ freeHeads (L ++ b :: R) := fun hm => hnot (freeHeads_subset hm)
  have hvw : IsWord v := by unfold IsWord; omega
  -- the header of the free part, then onto the histogram
  obtain ⟨hcore1, hsize1, hflag1⟩ := h.core.placeMetadata_outside hH hnot hvw
  have hbin1 : Binned (placeMetadata s n true v) (freeHeads (L ++ b :: R)) :=
    (h.binned.put_notMem hH hSH hnH hnS _ _).put_notMem hH hSH hnH hnS _ _
  obtain ⟨s3, hrun3, hstep3, hbin3⟩ := addNodeHisto_spec
    (s := { placeMetadata s n true v with numOfMetadatas := s.numOfMetadatas + 1 })
    hH hSH hnH hnS (hsize1.trans_lt (by omega)) (hbin1.setNum _)
  have hcore3 := (hcore1.setNum (s.numOfMetadatas + 1)).of_histoStep hH
    (Set.subset_insert _ _) hstep3
  -- the old block off it
  have hSH3 : insert n (freeHeads (L ++ b :: R)) ⊆ insert n (heads (L ++ b :: R)) :=
    Set.insert_subset_insert freeHeads_subset
  obtain ⟨s4, hrun4, hstep4, hbin4⟩ := hcore3.removeNodeHisto hH hSH3 hbin3 hb hbsmall (by
    rw [Set.mem_insert_iff, mem_freeHeads_iff h.core.layout hb]
    exact ⟨.inr, fun h => h.resolve_left (Ne.symm hnb)⟩)
  have hcore5 := (hcore3.of_histoStep hH (Set.subset_insert _ _) hstep4).placeMetadata_block
    (v := r) (by omega)
  have hSH4 : insert n (freeHeads (L ++ b :: R)) \ {b.addr} ⊆ insert n (heads (L ++ b :: R)) :=
    Set.sdiff_subset.trans hSH3
  have hbS : b.addr ∉ insert n (freeHeads (L ++ b :: R)) \ {b.addr} := fun hm => hm.2 rfl
  have hbin5 : Binned (placeMetadata s4 b.addr false r) _ :=
    (hbin4.put_notMem hH hSH4 hbH hbS _ _).put_notMem hH hSH4 hbH hbS _ _
  have hget5 : ∀ g, g ∉ histoFields → (placeMetadata s4 b.addr false r).get g n =
      (placeMetadata s n true v).get g n := by
    intro g hg
    have hapart := hH.apart b.addr hbH n hnH (Ne.symm hnb)
    rw [placeMetadata, get_put_apart _ hapart, get_put_apart _ hapart,
      hstep4.get hH hg hnH, hstep3.get hH hg hnH]
    rfl
  -- the free part onto the list
  have heads5 := heads_replace (L := L) (R := R) b ⟨b.addr, r, false⟩ rfl
  have hkernel : (placeMetadata s4 b.addr false r).kernel = s.kernel := by
    change s4.kernel = _
    rw [hstep4.kernel, hstep3.kernel]
    rfl
  obtain ⟨hcore6, hstep6⟩ := hcore5.insertAfter (c := ⟨n, v, true⟩) (by rw [heads5]; exact hH)
    (by rw [heads5]; exact hnot)
    (by
      rw [hkernel]
      refine h.core.layout.split rfl ?_ ?_
      · simp only [Block.fin]
        omega
      · simp only [Block.fin]
        omega)
    ((hget5 _ (by simp [histoFields])).trans hsize1)
    (by rw [Heap.isFree, hget5 _ (by simp [histoFields])]; exact hflag1)
  rw [heads5] at hstep6
  subst hn hv
  refine ⟨_, ?_, ⟨hcore6, ?_, ?_⟩, ?_, ?_⟩
  · have h1 : subT (s.get .size b.addr) r = b.size - r := by
      rw [h.core.size b hb]
      exact subT_of_le (by omega) (by omega)
    have h2 : subT (b.size - r) metaSize = b.size - r - metaSize :=
      subT_of_le (by omega) (by omega)
    have hnum : (placeMetadata s (b.addr + metaSize + r) true
        (b.size - r - metaSize)).numOfMetadatas = s.numOfMetadatas := rfl
    rw [splitBlock, h1, h2]
    simp only [hnum, hrun3, ok_bind, hrun4, pure_eq_ok]
  · intro d hd
    rcases List.mem_append.mp hd with hd | hd
    · exact h.small d (List.mem_append_left _ hd)
    · rcases List.mem_cons.mp hd with rfl | hd
      · change r < mmapSize
        omega
      · rcases List.mem_cons.mp hd with rfl | hd
        · change b.size - r - metaSize < mmapSize
          omega
        · exact h.small d (List.mem_append_right _ (List.mem_cons_of_mem _ hd))
  · rw [freeHeads_split (b := b) ⟨b.addr, r, false⟩
      ⟨b.addr + metaSize + r, b.size - r - metaSize, true⟩ h.core.layout hnb rfl rfl]
    exact hbin5.of_listStep hH hSH4 hstep6
  · have ht1 : Tame (insert (b.addr + metaSize + r) (heads (L ++ b :: R))) s
        { placeMetadata s (b.addr + metaSize + r) true (b.size - r - metaSize) with
          numOfMetadatas := s.numOfMetadatas + 1 } :=
      ((Tame.put s _ _ hnH).trans (Tame.put _ _ _ hnH)).setNum _
    exact (((ht1.trans hstep3.tame).trans hstep4.tame).trans
      ((Tame.put s4 _ _ hbH).trans (Tame.put _ _ _ hbH))).trans hstep6.tame
  · rw [hstep6.numOfMetadatas]
    change s4.numOfMetadatas = _
    rw [hstep4.numOfMetadatas, hstep3.numOfMetadatas]

end Moves

end OsAllHw.Malloc
