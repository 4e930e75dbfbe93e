import OsAllHw.Malloc2.FreeList

/-!
# The representation invariant of `malloc_2.cpp`

`Rep os s B` ties memory and the static variables to the block list `B`:
the headers read back, the free list runs through the free blocks in
address order, and the counters count. The calls are made of four moves
between such states: take a free block, release one, make a new one, write
into a payload.
-/

namespace OsAllHw.Malloc2

open Lib
open OsAllHw.Malloc (Os Kernel sbrk sizeT subT toIntptr sizeT_of_lt subT_of_le sbrk_cases)

structure Rep (os : Os) (s : Heap) (B : List Block) : Prop where
  tiles : Tiles os.brk0 B s.kernel.brk
  brk_le : s.kernel.brk ≤ os.limit
  size : ∀ b ∈ B, s.get .size b.addr = b.size
  flag : ∀ b ∈ B, s.isFree b.addr = b.isFree
  head : s.freeList = (freeAddrs B).headD 0
  linked : Seg (s.get .next) (s.get .prev) 0 (freeAddrs B) 0
  freeBlocksNum : s.freeBlocksNum = (freeAddrs B).length
  freeBytesNum : s.freeBytesNum = freeBytes B
  numOfMetadatas : s.numOfMetadatas = B.length
  numAllocatedBlocks : s.numAllocatedBlocks = B.length
  numAllocatedBytes : s.numAllocatedBytes = sizeT (totalSize B)

/-- What a call does to everything but the headers: the payloads stay, and
the kernel is not called. -/
structure Quiet (B : List Block) (s s' : Heap) : Prop where
  kernel : s'.kernel = s.kernel
  frame : ∀ x ∉ recordBytes metaSize (heads B), s'.mem x = s.mem x

section Facts

variable {os : Os} {s s' : Heap} {L R B : List Block} {b c : Block}

theorem Rep.brk_lt (h : Rep os s B) : s.kernel.brk < 2 ^ 64 := h.brk_le.trans_lt os.limit_lt

theorem Rep.headers (h : Rep os s B) : Headers (heads B) := by
  refine ⟨?_, ?_, h.tiles.spaced⟩
  · rintro ⟨b, hb, h0⟩
    have := (h.tiles.bounds hb).1
    have := os.brk0_pos
    omega
  · rintro _ ⟨b, hb, rfl⟩
    exact (b.addr_lt_fin.trans_le (h.tiles.bounds hb).2).trans h.brk_lt

theorem Rep.fin_le (h : Rep os s B) (hb : b ∈ B) : b.fin ≤ os.limit :=
  (h.tiles.bounds hb).2.trans h.brk_le

/-- Neither counter of the free list comes near its width. -/
theorem Rep.counters_lt (h : Rep os s B) :
    metaSize * B.length + freeBytes B < 2 ^ 64 ∧ (freeAddrs B).length ≤ B.length := by
  have h1 := h.tiles.room_le
  have h2 := freeBytes_le (B := B)
  have h3 := h.brk_lt
  exact ⟨by omega, length_freeAddrs_le⟩

theorem Rep.length_lt (h : Rep os s B) : B.length < 2 ^ 59 := by
  have h1 := h.counters_lt.1
  have h2 : metaSize * B.length = 32 * B.length := rfl
  omega

theorem Rep.walkFuel_gt (h : Rep os s B) : (freeAddrs B).length < walkFuel := by
  have h1 := h.length_lt
  have h2 := h.counters_lt.2
  unfold walkFuel
  omega

theorem Rep.zero_notMem (h : Rep os s B) : 0 ∉ freeAddrs B :=
  fun h0 => h.headers.zero_notMem (freeAddrs_subset h0)

theorem Rep.freeAddrs_nodup (h : Rep os s B) : (freeAddrs B).Nodup :=
  h.tiles.freeAddrs_sorted.imp Nat.ne_of_lt

theorem getLastD_mem_heads {l : List Nat} {H : Set Nat} (hl : ∀ a ∈ l, a ∈ H) :
    l.getLastD 0 = 0 ∨ l.getLastD 0 ∈ H :=
  (getLastD_mem_or l 0).imp And.left (hl _)

theorem headD_mem_heads {l : List Nat} {H : Set Nat} (hl : ∀ a ∈ l, a ∈ H) :
    l.headD 0 = 0 ∨ l.headD 0 ∈ H :=
  (headD_mem_or l 0).imp And.left (hl _)

/-- The head of a list from which a node was taken, or to which one was added. -/
theorem headD_splice {l₁ : List Nat} (l₂ l₃ : List Nat) (h0 : 0 ∉ l₁) :
    (l₁ ++ l₂).headD 0 = if l₁.getLastD 0 = 0 then l₂.headD 0 else (l₁ ++ l₃).headD 0 := by
  cases l₁ with
  | nil => rfl
  | cons a l =>
      rw [List.getLastD_cons, if_neg]
      · rfl
      · intro he
        exact h0 (he ▸ List.getLastD_mem_cons)

theorem Quiet.refl (B : List Block) (s : Heap) : Quiet B s s := ⟨rfl, fun _ _ => rfl⟩

end Facts

/-! ## The moves -/

section Moves

variable {os : Os} {s s' : Heap} {L R B : List Block} {b m : Block}

/-- The flag of one header, then links of any: the rest of the headers stays. -/
theorem get_flagged {H : Set Nat} (hH : Headers H) {a v : Nat} (ha : a ∈ H) (hv : v ≤ 1)
    (hget : ∀ f ∉ linkFields, ∀ c ∈ H, s'.get f c = (s.put .isFree a v).get f c) :
    (∀ c ∈ H, s'.get .size c = s.get .size c) ∧
      ∀ c ∈ H, s'.isFree c = if c = a then v != 0 else s.isFree c := by
  have hput : ∀ g, ∀ c ∈ H, (s.put .isFree a v).get g c =
      if c = a ∧ g = .isFree then v else s.get g c := fun g c hc =>
    get_put hH s ha hc (show v < 256 ^ 1 by omega)
  refine ⟨fun c hc => ?_, fun c hc => ?_⟩
  · rw [hget _ (by simp [linkFields]) c hc, hput _ c hc]
    simp
  · rw [Heap.isFree, hget _ (by simp [linkFields]) c hc, hput _ c hc]
    by_cases hca : c = a
    · simp [hca]
    · simp [hca, Heap.isFree]

/-- The links are not affected by a flag. -/
theorem get_put_flag_link {H : Set Nat} (hH : Headers H) {a v : Nat} (ha : a ∈ H) (hv : v ≤ 1)
    {g : Field} (hg : g ∈ linkFields) : ∀ c ∈ H, (s.put .isFree a v).get g c = s.get g c := by
  intro c hc
  refine (get_put hH s ha hc (show v < 256 ^ 1 by omega)).trans (if_neg ?_)
  rintro ⟨-, rfl⟩
  simp [linkFields] at hg

/-- The block list after one block changed its kind. -/
theorem Rep.setKind {c : Block} (h : Rep os s (L ++ b :: R)) (hc : c.addr = b.addr)
    (hs : c.size = b.size) (hb : b.kind ≠ .orphan) (hk : c.kind ≠ .orphan) :
    Tiles os.brk0 (L ++ c :: R) s.kernel.brk ∧ heads (L ++ c :: R) = heads (L ++ b :: R) ∧
      totalSize (L ++ c :: R) = totalSize (L ++ b :: R) := by
  refine ⟨h.tiles.replace hc ?_, heads_replace hc, by simp [hs]⟩
  unfold Block.fin Block.payload
  rw [b.room_eq hb, c.room_eq hk, hc, hs]

/-- The headers after one block changed its kind. -/
theorem Rep.headers_setKind {c : Block} (h : Rep os s (L ++ b :: R)) (hc : c.addr = b.addr)
    (hs : c.size = b.size) {v : Nat} (hv : v ≤ 1) (hf : c.isFree = (v != 0))
    (hget : ∀ f ∉ linkFields, ∀ a ∈ heads (L ++ b :: R),
      s'.get f a = (s.put .isFree b.addr v).get f a) :
    (∀ d ∈ L ++ c :: R, s'.get .size d.addr = d.size) ∧
      ∀ d ∈ L ++ c :: R, s'.isFree d.addr = d.isFree := by
  have hbmem : b ∈ L ++ b :: R := by simp
  obtain ⟨hsize, hflag⟩ := get_flagged h.headers (mem_heads hbmem) hv hget
  have hne : ∀ d ∈ L ++ c :: R, d ≠ c → d ∈ L ++ b :: R ∧ d.addr ≠ b.addr := by
    intro d hd hdc
    have hd' : d ∈ L ∨ d ∈ R := by
      simp only [List.mem_append, List.mem_cons] at hd
      tauto
    have hmem : d ∈ L ++ b :: R := by
      simp only [List.mem_append, List.mem_cons]
      tauto
    refine ⟨hmem, fun he => ?_⟩
    -- `b` itself occurs only once
    have hnd := h.tiles.addr_sorted.imp Nat.ne_of_lt
    rw [List.map_append, List.map_cons] at hnd
    have hnot := (List.nodup_cons.mp (List.nodup_middle.mp hnd)).1
    refine hnot ?_
    rw [← he, ← List.map_append]
    exact List.mem_map_of_mem (List.mem_append.mpr hd')
  refine ⟨fun d hd => ?_, fun d hd => ?_⟩
  · by_cases hdc : d = c
    · rw [hdc, hc, hsize _ (mem_heads hbmem), h.size b hbmem, hs]
    · obtain ⟨hmem, -⟩ := hne d hd hdc
      rw [hsize _ (mem_heads hmem), h.size d hmem]
  · by_cases hdc : d = c
    · rw [hdc, hc, hflag _ (mem_heads hbmem), if_pos rfl, hf]
    · obtain ⟨hmem, hne⟩ := hne d hd hdc
      rw [hflag _ (mem_heads hmem), if_neg hne, h.flag d hmem]

/-- The tail of `smalloc` when a block was found. -/
def taken (s : Heap) (current : Nat) : Heap :=
  let s := removeNode (s.put .isFree current 0) current
  { s with
    freeBytesNum := subT s.freeBytesNum (s.get .size current)
    freeBlocksNum := subT s.freeBlocksNum 1 }

theorem get_of_mem (h : s'.mem = s.mem) (f : Field) (p : Nat) : s'.get f p = s.get f p := by
  rw [Heap.get, Heap.get, h]

theorem LinkStep.values {H : Set Nat} (h : LinkStep H s s') :
    s'.kernel = s.kernel ∧ s'.freeBlocksNum = s.freeBlocksNum ∧
      s'.freeBytesNum = s.freeBytesNum ∧ s'.numOfMetadatas = s.numOfMetadatas ∧
      s'.numAllocatedBlocks = s.numAllocatedBlocks ∧
      s'.numAllocatedBytes = s.numAllocatedBytes := by
  obtain ⟨m, fl, rfl⟩ := h.vars
  exact ⟨rfl, rfl, rfl, rfl, rfl, rfl⟩

theorem taken_mem (s : Heap) (p : Nat) :
    (taken s p).mem = (removeNode (s.put .isFree p 0) p).mem := by
  rw [taken]

theorem taken_freeList (s : Heap) (p : Nat) :
    (taken s p).freeList = (removeNode (s.put .isFree p 0) p).freeList := by
  rw [taken]

/-- What `taken` does to the variables that are not memory. -/
theorem taken_values {H : Set Nat} {p : Nat}
    (h : LinkStep H (s.put .isFree p 0) (removeNode (s.put .isFree p 0) p)) :
    (taken s p).kernel = s.kernel ∧ (taken s p).freeBlocksNum = subT s.freeBlocksNum 1 ∧
      (taken s p).freeBytesNum =
        subT s.freeBytesNum ((removeNode (s.put .isFree p 0) p).get .size p) ∧
      (taken s p).numOfMetadatas = s.numOfMetadatas ∧
      (taken s p).numAllocatedBlocks = s.numAllocatedBlocks ∧
      (taken s p).numAllocatedBytes = s.numAllocatedBytes := by
  obtain ⟨h1, h2, h3, h4, h5, h6⟩ := h.values
  rw [taken]
  generalize removeNode (s.put .isFree p 0) p = t at *
  exact ⟨h1, congrArg (subT · 1) h2, congrArg (subT · (t.get .size p)) h3, h4, h5, h6⟩

/-- **Taking** a free block. Neither subtraction wraps. -/
theorem Rep.take (h : Rep os s (L ++ b :: R)) (hb : b.kind = .free) :
    Rep os (taken s b.addr) (L ++ ⟨b.addr, b.size, .used⟩ :: R) ∧
      Quiet (L ++ b :: R) s (taken s b.addr) ∧ b.size ≤ s.freeBytesNum ∧ 0 < s.freeBlocksNum := by
  have hH := h.headers
  have hmem : b ∈ L ++ b :: R := by simp
  have hbH : b.addr ∈ heads (L ++ b :: R) := mem_heads hmem
  have hfree : freeAddrs (L ++ b :: R) = freeAddrs L ++ b.addr :: freeAddrs R := by
    rw [freeAddrs_append, freeAddrs_cons_free hb]
  have hfree' : freeAddrs (L ++ ⟨b.addr, b.size, .used⟩ :: R) = freeAddrs L ++ freeAddrs R := by
    rw [freeAddrs_append, freeAddrs_cons (by simp)]
  have hsub : ∀ a ∈ freeAddrs L ++ freeAddrs R, a ∈ heads (L ++ b :: R) := fun a ha => by
    refine freeAddrs_subset ?_
    rw [hfree]
    simp only [List.mem_append, List.mem_cons] at ha ⊢
    tauto
  have hnd := h.freeAddrs_nodup
  have h0 := h.zero_notMem
  have hlinked := h.linked
  have hhead := h.head
  have hnum := h.freeBlocksNum
  have hbytes := h.freeBytesNum
  rw [hfree] at hnd h0 hlinked hhead hnum
  rw [freeBytes_append, freeBytes_cons_free hb] at hbytes
  rw [List.length_append, List.length_cons] at hnum
  have hnot := (List.nodup_cons.mp (List.nodup_middle.mp hnd)).1
  obtain ⟨hprev, hnext⟩ := hlinked.links
  have hflag := fun g (hg : g ∈ linkFields) =>
    get_put_flag_link (s := s) hH hbH (v := 0) (by decide) hg
  have hlist : (s.put .isFree b.addr 0).freeList ≠ 0 := by
    rw [put_freeList, h.head]
    refine (headD_mem_or _ 0).elim (fun hnil => ?_) fun hm => hH.ne_zero (freeAddrs_subset hm)
    rw [hfree] at hnil
    simp at hnil
  obtain ⟨hstep, hN, hP, hfl⟩ := removeNode_links hH hlist hbH
    (getLastD_mem_heads fun a ha => hsub a (List.mem_append_left _ ha))
    (headD_mem_heads fun a ha => hsub a (List.mem_append_right _ ha))
    ((hflag _ prev_mem _ hbH).trans hprev) ((hflag _ next_mem _ hbH).trans hnext)
  obtain ⟨htiles, -, htotal⟩ := h.setKind (c := ⟨b.addr, b.size, .used⟩) rfl rfl (by simp [hb])
    (by simp)
  obtain ⟨hsize', hflag'⟩ := h.headers_setKind (c := ⟨b.addr, b.size, .used⟩) (v := 0) rfl rfl
    (by decide) rfl hstep.get
  have hframe : ∀ x ∉ recordBytes metaSize (heads (L ++ b :: R)),
      (taken s b.addr).mem x = s.mem x := fun x hx => by
    rw [taken_mem, hstep.frame x hx, put_frame hbH x hx]
  have hsz : (removeNode (s.put .isFree b.addr 0) b.addr).get .size b.addr = b.size :=
    hsize' ⟨b.addr, b.size, .used⟩ (by simp)
  obtain ⟨hk, hvalNum, hvalBytes, hvalMetas, hvalBlocks, hvalTotal⟩ := taken_values hstep
  rw [hsz] at hvalBytes
  have hget : ∀ f p, (taken s b.addr).get f p =
      (removeNode (s.put .isFree b.addr 0) b.addr).get f p := get_of_mem (taken_mem s b.addr)
  have hlt := h.counters_lt
  rw [h.freeBytesNum.symm.trans hbytes, ← h.freeBlocksNum, hnum] at hlt
  have hlen := h.length_lt
  refine ⟨⟨by rw [hk]; exact htiles, by rw [hk]; exact h.brk_le, ?_, ?_, ?_, ?_, ?_, ?_,
    ?_, ?_, ?_⟩, ⟨hk, hframe⟩, by omega, by omega⟩
  · exact fun d hd => (hget _ _).trans (hsize' d hd)
  · intro d hd
    rw [Heap.isFree, hget]
    exact hflag' d hd
  · rw [hfree', headD_splice _ _ (fun hm => h0 (List.mem_append_left _ hm)), ← hhead,
      taken_freeList]
    exact hfl
  · rw [hfree']
    refine hlinked.unlink hnd (fun hm => h0 (by simp [hm])) (fun hm => h0 (by simp [hm])) ?_ ?_
    · intro a ha
      have hab : a ≠ b.addr := fun he => hnot (he ▸ ha)
      rw [hget, hN a (hsub a ha) hab, hflag _ next_mem a (hsub a ha)]
    · intro a ha
      have hab : a ≠ b.addr := fun he => hnot (he ▸ ha)
      rw [hget, hP a (hsub a ha) hab, hflag _ prev_mem a (hsub a ha)]
  · rw [hvalNum, hfree', List.length_append, subT_of_le (by omega) (by omega)]
    omega
  · rw [hvalBytes, freeBytes_append, freeBytes_cons (by simp), subT_of_le (by omega) (by omega)]
    omega
  · rw [hvalMetas, h.numOfMetadatas]
    simp
  · rw [hvalBlocks, h.numAllocatedBlocks]
    simp
  · rw [hvalTotal, h.numAllocatedBytes, htotal]

/-- The counters and the flag of `sfree`, before the block is linked. -/
def marked (s : Heap) (pMetadata : Nat) : Heap :=
  let s :=
    { s with
      freeBlocksNum := sizeT (s.freeBlocksNum + 1)
      freeBytesNum := sizeT (s.freeBytesNum + s.get .size pMetadata) }
  s.put .isFree pMetadata 1

theorem marked_mem (s : Heap) (p : Nat) : (marked s p).mem = (s.put .isFree p 1).mem := by
  rw [marked, Heap.put, Heap.put]

theorem marked_values (s : Heap) (p : Nat) :
    (marked s p).kernel = s.kernel ∧ (marked s p).freeList = s.freeList ∧
      (marked s p).freeBlocksNum = sizeT (s.freeBlocksNum + 1) ∧
      (marked s p).freeBytesNum = sizeT (s.freeBytesNum + s.get .size p) ∧
      (marked s p).numOfMetadatas = s.numOfMetadatas ∧
      (marked s p).numAllocatedBlocks = s.numAllocatedBlocks ∧
      (marked s p).numAllocatedBytes = s.numAllocatedBytes := by
  rw [marked, Heap.put]
  exact ⟨rfl, rfl, rfl, rfl, rfl, rfl, rfl⟩

/-- Released already: nothing happens. -/
theorem Rep.sfree_free (h : Rep os s B) (hb : b ∈ B) (hf : b.kind = .free) :
    sfree s b.payload = .ok s := by
  have h0 : b.payload ≠ 0 := Nat.succ_ne_zero _
  have hflag : s.isFree (b.payload - metaSize) = true := by
    rw [Block.payload, Nat.add_sub_cancel, h.flag b hb, Block.isFree, hf]
    rfl
  rw [sfree, if_neg h0]
  simp only [hflag, if_true]
  rfl

/-- **`sfree`** of a block in use. -/
theorem Rep.release (h : Rep os s (L ++ m :: R)) (hm : m.kind = .used) :
    ∃ s', sfree s m.payload = .ok s' ∧ Rep os s' (L ++ ⟨m.addr, m.size, .free⟩ :: R) ∧
      Quiet (L ++ m :: R) s s' := by
  have hH := h.headers
  have hmem : m ∈ L ++ m :: R := by simp
  have hmH : m.addr ∈ heads (L ++ m :: R) := mem_heads hmem
  have hfree : freeAddrs (L ++ m :: R) = freeAddrs L ++ freeAddrs R := by
    rw [freeAddrs_append, freeAddrs_cons (by simp [hm])]
  have hfree' : freeAddrs (L ++ ⟨m.addr, m.size, .free⟩ :: R) =
      freeAddrs L ++ m.addr :: freeAddrs R := by
    rw [freeAddrs_append, freeAddrs_cons_free rfl]
  have hsub : ∀ a ∈ freeAddrs L ++ freeAddrs R, a ∈ heads (L ++ m :: R) := fun a ha =>
    freeAddrs_subset (hfree ▸ ha)
  have hnd := h.freeAddrs_nodup
  have h0 := h.zero_notMem
  have hlinked := h.linked
  have hhead := h.head
  have hnum := h.freeBlocksNum
  have hbytes := h.freeBytesNum
  rw [hfree] at hnd h0 hlinked hhead hnum
  rw [freeBytes_append, freeBytes_cons (by simp [hm])] at hbytes
  rw [List.length_append] at hnum
  -- the list is sorted, so the walk stops between the two halves
  have hlow : ∀ a ∈ freeAddrs L, a < m.addr := by
    intro a ha
    obtain ⟨c, hc, -, rfl⟩ := mem_freeAddrs.mp ha
    have := (List.pairwise_append.mp h.tiles.pairwise).2.2 c hc m (by simp)
    exact c.addr_lt_fin.trans_le this
  have hhigh : ∀ a ∈ freeAddrs R, m.addr < a := by
    intro a ha
    obtain ⟨c, hc, -, rfl⟩ := mem_freeAddrs.mp ha
    have := (List.pairwise_cons.mp (List.pairwise_append.mp h.tiles.pairwise).2.1).1 c hc
    exact m.addr_lt_fin.trans_le this
  have hnot : m.addr ∉ freeAddrs L ++ freeAddrs R := fun hm => by
    rcases List.mem_append.mp hm with hm | hm
    · exact Nat.lt_irrefl _ (hlow _ hm)
    · exact Nat.lt_irrefl _ (hhigh _ hm)
  have hplace := findPlace_eq (r := 0) hlinked h0 (fun a ha => (hlow a ha).le) hhigh
    (hfree ▸ h.walkFuel_gt)
  rw [← hhead] at hplace
  have hrun : sfree s m.payload =
      .ok (addNode (marked s m.addr) m.addr ((freeAddrs L).getLastD 0)) := by
    have hp0 : m.payload ≠ 0 := Nat.succ_ne_zero _
    have hflag : s.isFree m.addr = false := by
      rw [h.flag m hmem, Block.isFree, hm]
      rfl
    have hsub : m.payload - metaSize = m.addr := Nat.add_sub_cancel _ _
    rw [sfree, if_neg hp0]
    simp only [hsub, hflag, Bool.false_eq_true, if_false]
    rw [hplace, ok_bind, marked]
    rfl
  obtain ⟨hk, hhd, hvalNum, hvalBytes, hvalMetas, hvalBlocks, hvalTotal⟩ := marked_values s m.addr
  have hget := get_of_mem (marked_mem s m.addr)
  have hlink : ∀ g ∈ linkFields, ∀ c ∈ heads (L ++ m :: R),
      (marked s m.addr).get g c = s.get g c := fun g hg c hc =>
    (hget g c).trans (get_put_flag_link hH hmH (by decide) hg c hc)
  have hq := getLastD_mem_heads (H := heads (L ++ m :: R)) fun a ha =>
    hsub a (List.mem_append_left (freeAddrs R) ha)
  have hn := headD_mem_heads (H := heads (L ++ m :: R)) fun a ha =>
    hsub a (List.mem_append_right (freeAddrs L) ha)
  have hnext : if (freeAddrs L).getLastD 0 = 0 then (marked s m.addr).freeList =
      (freeAddrs R).headD 0 else (marked s m.addr).get .next ((freeAddrs L).getLastD 0) =
      (freeAddrs R).headD 0 := by
    split
    · rename_i hq0
      rw [hhd, hhead, headD_splice _ [] (fun hm => h0 (List.mem_append_left _ hm)),
        if_pos hq0]
    · rename_i hq0
      rw [hlink _ next_mem _ (hq.resolve_left hq0)]
      obtain ⟨hL, -⟩ := Seg.append_iff.mp hlinked
      exact hL.getLastD_next fun hnil => hq0 (by rw [hnil]; rfl)
  have hmq : m.addr ≠ (freeAddrs L).getLastD 0 :=
    ne_getLastD (hH.ne_zero hmH) fun hm => hnot (List.mem_append_left _ hm)
  have hmn : m.addr ≠ (freeAddrs R).headD 0 :=
    ne_headD (hH.ne_zero hmH) fun hm => hnot (List.mem_append_right _ hm)
  obtain ⟨hstep, hN, hP, hfl⟩ := addNode_links hH hmH hq hn hmq hmn hnext
  obtain ⟨htiles, -, htotal⟩ := h.setKind (c := ⟨m.addr, m.size, .free⟩) rfl rfl (by simp [hm])
    (by simp)
  obtain ⟨hsize', hflag'⟩ := h.headers_setKind (c := ⟨m.addr, m.size, .free⟩) (v := 1) rfl rfl
    le_rfl rfl fun f hf a ha => (hstep.get f hf a ha).trans (hget f a)
  obtain ⟨hk', hvalNum', hvalBytes', hvalMetas', hvalBlocks', hvalTotal'⟩ := hstep.values
  have hk₂ := hk'.trans hk
  have hlt := h.counters_lt.1
  have hlen := h.length_lt
  have hcount := h.counters_lt.2
  rw [hfree, List.length_append] at hcount
  -- the block's own bytes are among those of the segment
  have hroom : freeBytes (L ++ ⟨m.addr, m.size, .free⟩ :: R) < 2 ^ 64 := by
    have h1 := htiles.room_le
    have h2 := freeBytes_le (B := L ++ ⟨m.addr, m.size, .free⟩ :: R)
    have h3 := h.brk_lt
    omega
  rw [freeBytes_append, freeBytes_cons_free rfl] at hroom
  refine ⟨_, hrun, ⟨by rw [hk₂]; exact htiles, by rw [hk₂]; exact h.brk_le, hsize', hflag', ?_, ?_,
    ?_, ?_, ?_, ?_, ?_⟩, hk₂, ?_⟩
  · rw [hfl, hfree', hhd, hhead]
    exact (headD_splice (m.addr :: freeAddrs R) (freeAddrs R)
      fun hm => h0 (List.mem_append_left _ hm)).symm
  · rw [hfree']
    have hsub' : ∀ a ∈ freeAddrs L ++ m.addr :: freeAddrs R, a ∈ heads (L ++ m :: R) := by
      intro a ha
      simp only [List.mem_append, List.mem_cons] at ha
      rcases ha with ha | rfl | ha
      · exact hsub a (List.mem_append_left _ ha)
      · exact hmH
      · exact hsub a (List.mem_append_right _ ha)
    refine hlinked.insert hnd hnot (fun hm => h0 (by simp [hm])) (fun hm => h0 (by simp [hm]))
      ?_ ?_
    · intro a ha
      rw [hN a (hsub' a ha), hlink _ next_mem a (hsub' a ha)]
    · intro a ha
      rw [hP a (hsub' a ha), hlink _ prev_mem a (hsub' a ha)]
  · rw [hvalNum', hvalNum, hfree', List.length_append, List.length_cons, hnum,
      sizeT_of_lt (by omega)]
    omega
  · rw [hvalBytes', hvalBytes, freeBytes_append, freeBytes_cons_free rfl, h.size m hmem, hbytes]
    simp only at hroom ⊢
    rw [sizeT_of_lt (by omega)]
    omega
  · rw [hvalMetas', hvalMetas, h.numOfMetadatas]
    simp
  · rw [hvalBlocks', hvalBlocks, h.numAllocatedBlocks]
    simp
  · rw [hvalTotal', hvalTotal, h.numAllocatedBytes, htotal]
  · intro x hx
    rw [hstep.frame x hx, marked_mem, put_frame hmH x hx]

end Moves

end OsAllHw.Malloc2
