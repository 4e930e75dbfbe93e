import OsAllHw.Malloc2.Rep

/-!
# The calls of `malloc_2.cpp`

What each call makes of the block list. `Allocates` is `smalloc`: first fit
by address, otherwise a new block at the break, and two ways to fail.
`Serves` is any call that returns a pointer. None of them touches a byte
of a payload except `scalloc`, which clears the block it got, and
`srealloc`, which copies into it.
-/

namespace OsAllHw.Malloc2

open Lib
open OsAllHw.Malloc (Os Kernel sbrk sizeT subT toIntptr sizeT_of_lt subT_of_le sbrk_cases)

/-! ## New blocks -/

section New

variable {os : Os} {s s' : Heap} {L R B : List Block} {b c m : Block} {r : Nat}

/-- The same memory map with the same break. -/
theorem Rep.setKernel {k : Kernel} (h : Rep os s B) (hk : k.brk = s.kernel.brk) :
    Rep os { s with kernel := k } B :=
  ⟨hk ▸ h.tiles, hk ▸ h.brk_le, h.size, h.flag, h.head, h.linked, h.freeBlocksNum,
    h.freeBytesNum, h.numOfMetadatas, h.numAllocatedBlocks, h.numAllocatedBytes⟩

/-- Other memory with the same headers. -/
theorem Rep.setMem {m : Mem} (h : Rep os s B)
    (hm : ∀ x ∈ recordBytes metaSize (heads B), m x = s.mem x) : Rep os { s with mem := m } B := by
  have hget : ∀ f, ∀ a ∈ heads B, Heap.get { s with mem := m } f a = s.get f a := fun f a ha =>
    mallocMetadata.load_congr fun x h1 h2 => hm x ⟨a, ha, h1, h2⟩
  refine ⟨h.tiles, h.brk_le, ?_, ?_, h.head, ?_, h.freeBlocksNum, h.freeBytesNum,
    h.numOfMetadatas, h.numAllocatedBlocks, h.numAllocatedBytes⟩
  · exact fun b hb => (hget _ _ (mem_heads hb)).trans (h.size b hb)
  · intro b hb
    rw [Heap.isFree, hget _ _ (mem_heads hb)]
    exact h.flag b hb
  · exact h.linked.congr (fun a ha => hget _ a (freeAddrs_subset ha))
      fun a ha => hget _ a (freeAddrs_subset ha)

/-- A byte of a payload is no byte of a header. -/
theorem Tiles.payload_notMem {lo hi x : Nat} (h : Tiles lo B hi) (hb : b ∈ B)
    (h1 : b.payload ≤ x) (h2 : x < b.fin) : x ∉ recordBytes metaSize (heads B) := by
  rintro ⟨_, ⟨c, hc, rfl⟩, h3, h4⟩
  by_cases hcb : c = b
  · subst hcb
    unfold Block.payload at h1
    omega
  · have := b.addr_lt_payload
    have := c.payload_le_fin
    unfold Block.payload at *
    rcases h.disjoint hc hb hcb with h5 | h5 <;> omega

/-- Writes into one payload. -/
theorem Rep.writeIn {m : Mem} (h : Rep os s B) (hb : b ∈ B)
    (hm : ∀ x, x < b.payload ∨ b.fin ≤ x → m x = s.mem x) : Rep os { s with mem := m } B := by
  refine h.setMem fun x hx => hm x ?_
  by_contra hin
  exact h.tiles.payload_notMem hb (by omega) (by omega) hx

theorem sizeT_add (a b : Nat) : sizeT (sizeT a + b) = sizeT (a + b) := by
  unfold sizeT
  exact Nat.mod_add_mod a (2 ^ 64) b

/-- A header at the break, with or without the payload behind it. -/
theorem Rep.concat (h : Rep os s B) (hc : c.addr = s.kernel.brk) (hk : c.kind ≠ .free)
    (hbrk : s'.kernel.brk = c.fin) (hlim : c.fin ≤ os.limit)
    (hmem : ∀ x, x < s.kernel.brk → s'.mem x = s.mem x) (hsize : s'.get .size c.addr = c.size)
    (hflag : s'.isFree c.addr = false) (hfl : s'.freeList = s.freeList)
    (hblocks : s'.freeBlocksNum = s.freeBlocksNum) (hbytes : s'.freeBytesNum = s.freeBytesNum)
    (hmetas : s'.numOfMetadatas = sizeT (s.numOfMetadatas + 1))
    (halloc : s'.numAllocatedBlocks = sizeT (s.numAllocatedBlocks + 1))
    (htotal : s'.numAllocatedBytes = sizeT (s.numAllocatedBytes + c.size)) :
    Rep os s' (B ++ [c]) := by
  have hget : ∀ f, ∀ a ∈ heads B, s'.get f a = s.get f a := by
    rintro f _ ⟨b, hb, rfl⟩
    refine mallocMetadata.load_congr fun x h1 h2 => hmem x ?_
    have h3 := (h.tiles.bounds hb).2
    have h4 := b.payload_le_fin
    unfold Block.payload at h4
    have h5 : mallocMetadata.size = metaSize := rfl
    omega
  have hcfree : c.isFree = false := by simp [Block.isFree, hk]
  have hlen := h.length_lt
  have hfree : freeAddrs (B ++ [c]) = freeAddrs B := by
    rw [freeAddrs_append, freeAddrs_cons hk]
    exact List.append_nil _
  refine ⟨?_, by rw [hbrk]; exact hlim, ?_, ?_, ?_, ?_, ?_, ?_, ?_, ?_, ?_⟩
  · rw [hbrk]
    exact h.tiles.concat hc
  · intro b hb
    rcases List.mem_append.mp hb with hb | hb
    · rw [hget _ _ (mem_heads hb), h.size b hb]
    · rw [List.mem_singleton.mp hb, hsize]
  · intro b hb
    rcases List.mem_append.mp hb with hb | hb
    · rw [Heap.isFree, hget _ _ (mem_heads hb)]
      exact h.flag b hb
    · rw [List.mem_singleton.mp hb, hflag, hcfree]
  · rw [hfl, h.head, hfree]
  · rw [hfree]
    exact h.linked.congr (fun a ha => hget _ a (freeAddrs_subset ha))
      fun a ha => hget _ a (freeAddrs_subset ha)
  · rw [hblocks, h.freeBlocksNum, hfree]
  · rw [hbytes, h.freeBytesNum, freeBytes_append, freeBytes_cons hk]
    rfl
  · rw [hmetas, h.numOfMetadatas, sizeT_of_lt (by omega), List.length_append]
    rfl
  · rw [halloc, h.numAllocatedBlocks, sizeT_of_lt (by omega), List.length_append]
    rfl
  · rw [htotal, h.numAllocatedBytes, sizeT_add, totalSize_append, totalSize_cons, totalSize_nil,
      Nat.add_zero]

/-- **`create_metadata_sbrk`**: refused, or a header at the break. -/
theorem createMetadataSbrk_cases (h : Rep os s B) (hr : r ≤ maxRequest) :
    createMetadataSbrk os s r = (0, { s with kernel := s.kernel.refused }) ∨
    s.kernel.brk + metaSize ≤ os.limit ∧ ∃ s', createMetadataSbrk os s r = (s.kernel.brk, s') ∧
      s'.kernel = s.kernel.moved metaSize ∧ s'.get .size s.kernel.brk = r ∧
      s'.isFree s.kernel.brk = false ∧
      (∀ x, x < s.kernel.brk ∨ s.kernel.brk + metaSize ≤ x → s'.mem x = s.mem x) ∧
      s'.freeList = s.freeList ∧ s'.freeBlocksNum = s.freeBlocksNum ∧
      s'.freeBytesNum = s.freeBytesNum ∧ s'.numOfMetadatas = sizeT (s.numOfMetadatas + 1) ∧
      s'.numAllocatedBlocks = sizeT (s.numAllocatedBlocks + 1) ∧
      s'.numAllocatedBytes = sizeT (s.numAllocatedBytes + r) := by
  have hmr : maxRequest = 100000000 := rfl
  have hms : metaSize = 32 := rfl
  obtain ⟨a, ha⟩ : ∃ a, s.kernel.brk = a := ⟨_, rfl⟩
  have ha0 : a ≠ 0 := by
    have := os.brk0_pos
    have := h.tiles.le
    omega
  have hH : Headers {a} := ⟨fun h0 => ha0 h0.symm, fun p hp => hp ▸ ha ▸ h.brk_lt, by
    rintro p rfl q rfl hne
    exact absurd rfl hne⟩
  have haH : a ∈ ({a} : Set Nat) := rfl
  rw [createMetadataSbrk, smallocNaive, if_neg (by omega)]
  rcases sbrk_cases os s.kernel (n := metaSize) (by omega) with hsb | ⟨hlim, hsb⟩
  · left
    rw [hsb]
    rfl
  · right
    rw [ha] at hsb hlim ⊢
    rw [hsb]
    simp only [if_neg ha0]
    refine ⟨hlim, _, rfl, rfl, ?_, ?_, ?_, rfl, rfl, rfl, rfl, rfl, rfl⟩
    · refine (get_of_mem rfl _ _).trans (?_ : Heap.get ((((Heap.put { s with
        kernel := s.kernel.moved metaSize } .size a r).put .isFree a 0).put .next a 0).put
          .prev a 0) .size a = r)
      rw [get_put_prev hH _ haH haH (by decide), get_put_next hH _ haH haH (by decide),
        get_put hH _ haH haH (by decide),
        get_put hH _ haH haH (show r < 256 ^ 8 by omega)]
      simp
    · refine (congrArg (· != 0) ((get_of_mem rfl _ _).trans (?_ : Heap.get ((((Heap.put { s with
        kernel := s.kernel.moved metaSize } .size a r).put .isFree a 0).put .next a 0).put
          .prev a 0) .isFree a = 0)))
      rw [get_put_prev hH _ haH haH (by decide), get_put_next hH _ haH haH (by decide),
        get_put hH _ haH haH (by decide)]
      simp
    · intro x hx
      have hout : x ∉ recordBytes metaSize ({a} : Set Nat) := by
        rintro ⟨p, rfl, h1, h2⟩
        omega
      refine ((((put_frame haH x hout).trans (put_frame haH x hout)).trans
        (put_frame haH x hout)).trans (put_frame haH x hout))

end New

/-! ## `smalloc` -/

/-- **First fit.** From `B`, a request of `r` bytes leads to `B'` and the
pointer `q`. -/
inductive Allocates (r brk : Nat) : List Block → List Block → Nat → Prop where
  | reuse (L R : List Block) (b : Block) (hb : b.kind = .free) (hr : r ≤ b.size)
      (hfirst : ∀ c ∈ L, c.kind = .free → c.size < r) :
      Allocates r brk (L ++ b :: R) (L ++ ⟨b.addr, b.size, .used⟩ :: R) b.payload
  | fresh (B : List Block) (hnone : ∀ c ∈ B, c.kind = .free → c.size < r) :
      Allocates r brk B (B ++ [⟨brk, r, .used⟩]) (brk + metaSize)
  | noHeader (B : List Block) (hnone : ∀ c ∈ B, c.kind = .free → c.size < r) :
      Allocates r brk B B 0
  | noPayload (B : List Block) (hnone : ∀ c ∈ B, c.kind = .free → c.size < r) :
      Allocates r brk B (B ++ [⟨brk, r, .orphan⟩]) 0

/-- What every call does around its block list: only payloads in `own` are
written, and a `NULL` comes from a refused `sbrk`. -/
structure Answers (os : Os) (own : Set Nat) (B B' : List Block) (s : Heap) (x : Nat × Heap) :
    Prop where
  rep : Rep os x.2 B'
  payloads : ∀ b ∈ B, b.payload ∉ own → ∀ i, b.payload ≤ i → i < b.fin → x.2.mem i = s.mem i
  failures : s.kernel.sbrkFailures ≤ x.2.kernel.sbrkFailures
  null : x.1 = 0 → s.kernel.sbrkFailures < x.2.kernel.sbrkFailures

section Smalloc

variable {os : Os} {s : Heap} {L R B : List Block} {b : Block} {r : Nat}

/-- What the search over the free list finds, in terms of the blocks. -/
theorem find_free {g : Nat → Nat} (hg : ∀ b ∈ B, g b.addr = b.size) :
    ((freeAddrs B).find? (fun a => decide (r ≤ g a)) = none ∧
      ∀ c ∈ B, c.kind = .free → c.size < r) ∨
    ∃ L b R, B = L ++ b :: R ∧ b.kind = .free ∧ r ≤ b.size ∧
      (∀ c ∈ L, c.kind = .free → c.size < r) ∧
      (freeAddrs B).find? (fun a => decide (r ≤ g a)) = some b.addr := by
  induction B with
  | nil => exact .inl ⟨rfl, fun c hc => absurd hc List.not_mem_nil⟩
  | cons a B ih =>
      have hga : g a.addr = a.size := hg a (by simp)
      by_cases hfits : a.kind = .free ∧ r ≤ a.size
      · refine .inr ⟨[], a, B, rfl, hfits.1, hfits.2, fun c hc => absurd hc List.not_mem_nil, ?_⟩
        rw [freeAddrs_cons_free hfits.1, List.find?_cons_of_pos (by simpa [hga] using hfits.2)]
      · -- `a` is passed over
        have hskip : a.kind = .free → a.size < r := fun hf =>
          Nat.lt_of_not_le fun hle => hfits ⟨hf, hle⟩
        have hfind : (freeAddrs (a :: B)).find? (fun a => decide (r ≤ g a)) =
            (freeAddrs B).find? (fun a => decide (r ≤ g a)) := by
          by_cases hf : a.kind = .free
          · rw [freeAddrs_cons_free hf, List.find?_cons_of_neg (by simpa [hga] using hskip hf)]
          · rw [freeAddrs_cons hf]
        rw [hfind]
        rcases ih fun b hb => hg b (by simp [hb]) with
          ⟨hno, hall⟩ | ⟨L, b, R, rfl, hb, hr, hL, hsome⟩
        · refine .inl ⟨hno, fun c hc hcf => ?_⟩
          rcases List.mem_cons.mp hc with rfl | hc
          · exact hskip hcf
          · exact hall c hc hcf
        · refine .inr ⟨a :: L, b, R, rfl, hb, hr, fun c hc hcf => ?_, hsome⟩
          rcases List.mem_cons.mp hc with rfl | hc
          · exact hskip hcf
          · exact hL c hc hcf

/-- The search of `smalloc`. -/
theorem Rep.search (h : Rep os s B) (r : Nat) :
    (findFit s r walkFuel s.freeList = .ok 0 ∧ ∀ c ∈ B, c.kind = .free → c.size < r) ∨
    ∃ L b R, B = L ++ b :: R ∧ b.kind = .free ∧ r ≤ b.size ∧
      (∀ c ∈ L, c.kind = .free → c.size < r) ∧ findFit s r walkFuel s.freeList = .ok b.addr := by
  have hrun := findFit_eq (r := r) h.linked h.zero_notMem h.walkFuel_gt
  rw [← h.head] at hrun
  rw [hrun]
  rcases find_free (r := r) h.size with ⟨hno, hall⟩ | ⟨L, b, R, hB, hb, hr, hL, hsome⟩
  · exact .inl ⟨by rw [hno]; rfl, hall⟩
  · exact .inr ⟨L, b, R, hB, hb, hr, hL, by rw [hsome]; rfl⟩

/-- Out of range: nothing happens. -/
theorem smalloc_refuses (os : Os) (s : Heap) (hr : r = 0 ∨ maxRequest < r) :
    smalloc os s r = .ok (0, s) := by
  rw [smalloc, if_pos hr]
  rfl

theorem smalloc_found (h : Rep os s (L ++ b :: R)) (h0 : r ≠ 0) (hmax : r ≤ maxRequest)
    (hrun : findFit s r walkFuel s.freeList = .ok b.addr) (hb : b.kind = .free) :
    smalloc os s r = .ok (b.payload, taken s b.addr) := by
  have hmem : b ∈ L ++ b :: R := by simp
  have hb0 : b.addr ≠ 0 := h.headers.ne_zero (mem_heads hmem)
  have hlist : s.freeList ≠ 0 := by
    intro he
    have hin : b.addr ∈ freeAddrs (L ++ b :: R) := mem_freeAddrs.mpr ⟨b, hmem, hb, rfl⟩
    have hhead := h.head
    rw [he] at hhead
    rcases headD_mem_or (freeAddrs (L ++ b :: R)) 0 with ⟨-, hnil⟩ | hm
    · rw [hnil] at hin
      cases hin
    · exact h.zero_notMem (hhead ▸ hm)
  have hguard : ¬(listIsEmpty s = true ∨ b.addr = 0) := by simp [listIsEmpty, hlist, hb0]
  rw [smalloc, if_neg (by omega), hrun, ok_bind, if_neg hguard]
  rfl

/-- The payload was refused: the header stays. -/
theorem Rep.orphan {s' : Heap} (h : Rep os s B) (hlim : s.kernel.brk + metaSize ≤ os.limit)
    (hk : s'.kernel.brk = s.kernel.brk + metaSize) (hsize : s'.get .size s.kernel.brk = r)
    (hflag : s'.isFree s.kernel.brk = false)
    (hmem : ∀ x, x < s.kernel.brk ∨ s.kernel.brk + metaSize ≤ x → s'.mem x = s.mem x)
    (hfl : s'.freeList = s.freeList)
    (hblocks : s'.freeBlocksNum = s.freeBlocksNum) (hbytes : s'.freeBytesNum = s.freeBytesNum)
    (hmetas : s'.numOfMetadatas = sizeT (s.numOfMetadatas + 1))
    (halloc : s'.numAllocatedBlocks = sizeT (s.numAllocatedBlocks + 1))
    (htotal : s'.numAllocatedBytes = sizeT (s.numAllocatedBytes + r)) :
    Rep os s' (B ++ [⟨s.kernel.brk, r, .orphan⟩]) :=
  h.concat rfl (by simp) hk hlim (fun x hx => hmem x (.inl hx)) hsize hflag hfl hblocks hbytes
    hmetas halloc htotal

/-- The bytes of old payloads are below the break. -/
theorem Rep.payload_lt (h : Rep os s B) (hb : b ∈ B) {i : Nat} (hi : i < b.fin) :
    i < s.kernel.brk := hi.trans_le (h.tiles.bounds hb).2

/-- **`smalloc`** is first fit. -/
theorem smalloc_spec (h : Rep os s B) (h0 : r ≠ 0) (hmax : r ≤ maxRequest) :
    ∃ x B', smalloc os s r = .ok x ∧ Allocates r s.kernel.brk B B' x.1 ∧
      Answers os ∅ B B' s x := by
  have hmr : maxRequest = 100000000 := rfl
  rcases h.search r with ⟨hrun, hnone⟩ | ⟨L, b, R, rfl, hb, hr, hfirst, hrun⟩
  · rw [smalloc, if_neg (by omega), hrun, ok_bind, if_pos (.inr rfl)]
    have hb0 : s.kernel.brk ≠ 0 := by
      have := os.brk0_pos
      have := h.tiles.le
      omega
    rcases createMetadataSbrk_cases h hmax with hno | ⟨hlim, s', hmk, hk, hsize, hflag, hmem, hfl,
      hblocks, hbytes, hmetas, halloc, htotal⟩
    · rw [hno]
      exact ⟨(0, { s with kernel := s.kernel.refused }), B, rfl, .noHeader B hnone,
        h.setKernel rfl, fun _ _ _ _ _ _ => rfl, Nat.le_succ _, fun _ => Nat.lt_succ_self _⟩
    · have hpay : ∀ b ∈ B, b.payload ∉ (∅ : Set Nat) → ∀ i, b.payload ≤ i → i < b.fin →
          s'.mem i = s.mem i := fun b hb _ i _ hi => hmem i (.inl (h.payload_lt hb hi))
      have hfail : s'.kernel.sbrkFailures = s.kernel.sbrkFailures := by
        rw [hk]
        rfl
      have hbrk : s'.kernel.brk = s.kernel.brk + metaSize := by
        rw [hk]
        rfl
      rw [hmk]
      simp only [if_neg hb0]
      rcases sbrk_cases os s'.kernel (n := r) (by omega) with hsb | ⟨hlim', hsb⟩
      · rw [hsb]
        refine ⟨(0, { s' with kernel := s'.kernel.refused }), _, rfl, .noPayload B hnone, ?_, hpay,
          ?_, fun _ => ?_⟩
        · exact h.orphan hlim hbrk hsize hflag hmem hfl hblocks hbytes hmetas halloc htotal
        · exact hfail.ge.trans (Nat.le_succ _)
        · exact hfail.ge.trans_lt (Nat.lt_succ_self _)
      · rw [hsb, hbrk]
        refine ⟨(s.kernel.brk + metaSize, { s' with kernel := s'.kernel.moved r }), _, rfl,
          .fresh B hnone, ?_, hpay, hfail.ge, fun hx => absurd hx (Nat.succ_ne_zero _)⟩
        · refine h.concat rfl (by simp) ?_ ?_ (fun x hx => hmem x (.inl hx)) hsize hflag hfl hblocks
            hbytes hmetas halloc htotal
          · exact congrArg (· + r) hbrk
          · rw [hbrk] at hlim'
            exact hlim'
  · obtain ⟨hrep, hquiet, -, -⟩ := h.take hb
    have hmem : b ∈ L ++ b :: R := by simp
    refine ⟨(b.payload, taken s b.addr), _, smalloc_found h h0 hmax hrun hb,
      .reuse L R b hb hr hfirst, hrep, ?_, ?_, fun hx => absurd hx (Nat.succ_ne_zero _)⟩
    · exact fun c hc _ i h1 h2 => hquiet.frame i (h.tiles.payload_notMem hc h1 h2)
    · rw [hquiet.kernel]

/-- A block too small for the request is still there. -/
theorem Allocates.mem {B' : List Block} {brk q : Nat} (h : Allocates r brk B B' q) (hb : b ∈ B)
    (hlt : b.size < r) : b ∈ B' := by
  cases h with
  | reuse L R c hc hr hfirst =>
      have hbc : b ≠ c := fun he => by
        rw [he] at hlt
        omega
      simp only [List.mem_append, List.mem_cons, hbc, false_or] at hb ⊢
      exact hb.imp_right Or.inr
  | fresh B hnone => exact List.mem_append_left _ hb
  | noHeader B hnone => exact hb
  | noPayload B hnone => exact List.mem_append_left _ hb

/-- The block behind the pointer returned. -/
theorem Allocates.exists_block {B' : List Block} {brk q : Nat} (h : Allocates r brk B B' q)
    (hq : q ≠ 0) : ∃ n ∈ B', n.kind = .used ∧ n.payload = q ∧ r ≤ n.size := by
  cases h with
  | reuse L R b hb hr hfirst => exact ⟨⟨b.addr, b.size, .used⟩, by simp, rfl, rfl, hr⟩
  | fresh B hnone => exact ⟨⟨brk, r, .used⟩, by simp, rfl, rfl, le_rfl⟩
  | noHeader B hnone => exact absurd rfl hq
  | noPayload B hnone => exact absurd rfl hq

end Smalloc

/-! ## `scalloc`, `sfree` and `srealloc` -/

/-- **`srealloc`** of `m` to `r` bytes. -/
inductive Reallocates (r brk : Nat) (B : List Block) (m : Block) : List Block → Nat → Prop where
  | keep (hr : r ≤ m.size) : Reallocates r brk B m B m.payload
  | null (B' : List Block) (hlt : m.size < r) (halloc : Allocates r brk B B' 0) :
      Reallocates r brk B m B' 0
  | move (L R : List Block) (q : Nat) (hlt : m.size < r) (hq : q ≠ 0)
      (halloc : Allocates r brk B (L ++ m :: R) q) (hm : m.kind = .used) :
      Reallocates r brk B m (L ++ ⟨m.addr, m.size, .free⟩ :: R) q
  /-- The caller had released `m` before. -/
  | moveFree (B' : List Block) (q : Nat) (hlt : m.size < r) (hq : q ≠ 0)
      (halloc : Allocates r brk B B' q) (hm : m.kind = .free) : Reallocates r brk B m B' q

section Others

variable {os : Os} {s : Heap} {L R B B' : List Block} {b m n : Block} {r : Nat} {x : Nat × Heap}

theorem Answers.mono {own own' : Set Nat} (h : Answers os own B B' s x) (ho : own ⊆ own') :
    Answers os own' B B' s x :=
  ⟨h.rep, fun b hb hout => h.payloads b hb fun hin => hout (ho hin), h.failures, h.null⟩

theorem Answers.refl (h : Rep os s B) {p : Nat} (hp : p ≠ 0) : Answers os ∅ B B s (p, s) :=
  ⟨h, fun _ _ _ _ _ _ => rfl, le_rfl, fun h0 => absurd h0 hp⟩

theorem payload_inj {b c : Block} : b.payload = c.payload ↔ b.addr = c.addr :=
  Nat.add_left_inj

theorem Block.fin_used (n : Block) (hn : n.kind ≠ .orphan) : n.fin = n.payload + n.size := by
  rw [Block.fin, n.room_eq hn]

/-- Writes into the block just returned. -/
theorem Answers.writeIn {own : Set Nat} (mem : Mem) (h : Answers os own B B' s x) (hn : n ∈ B')
    (hq : n.payload = x.1) (hmem : ∀ i, i < n.payload ∨ n.fin ≤ i → mem i = x.2.mem i)
    (hold : ∀ b ∈ B, b ∈ B' ∨ b.payload = x.1) :
    Answers os (insert x.1 own) B B' s (x.1, { x.2 with mem := mem }) := by
  refine ⟨h.rep.writeIn hn hmem, fun b hb hout i h1 h2 => ?_, h.failures, h.null⟩
  rw [Set.mem_insert_iff, not_or] at hout
  refine (hmem i ?_).trans (h.payloads b hb hout.2 i h1 h2)
  rcases hold b hb with hb' | he
  · have hbn : b ≠ n := fun he => hout.1 (he ▸ hq)
    have := b.addr_lt_payload
    have := n.addr_lt_payload
    rcases h.rep.tiles.disjoint hb' hn hbn with h3 | h3 <;> omega
  · exact absurd he hout.1

/-- An old block is there as it was, or it is the one returned. -/
theorem Allocates.old {brk q : Nat} (h : Allocates r brk B B' q) (hb : b ∈ B) :
    b ∈ B' ∨ b.payload = q := by
  cases h with
  | reuse L R c hc hr hfirst =>
      by_cases hbc : b = c
      · exact .inr (by rw [hbc])
      · simp only [List.mem_append, List.mem_cons, hbc, false_or] at hb ⊢
        exact .inl (hb.imp_right Or.inr)
  | fresh B hnone => exact .inl (List.mem_append_left _ hb)
  | noHeader B hnone => exact .inl hb
  | noPayload B hnone => exact .inl (List.mem_append_left _ hb)

/-- **`scalloc`**: as `smalloc`, and the block is cleared. -/
theorem scalloc_spec (num size : Nat) (h : Rep os s B) (h0 : sizeT (num * size) ≠ 0)
    (hmax : sizeT (num * size) ≤ maxRequest) :
    ∃ x B', scalloc os s num size = .ok x ∧ Allocates (sizeT (num * size)) s.kernel.brk B B' x.1 ∧
      Answers os {x.1} B B' s x ∧
      (x.1 ≠ 0 → ∀ i < sizeT (num * size), x.2.mem (x.1 + i) = 0) := by
  obtain ⟨⟨p, s'⟩, B', hrun, halloc, hans⟩ := smalloc_spec h h0 hmax
  rw [scalloc, hrun, ok_bind]
  by_cases hp : p = 0
  · subst hp
    exact ⟨(0, s'), B', rfl, halloc, hans.mono (Set.empty_subset _), fun hx => absurd rfl hx⟩
  · obtain ⟨n, hn, hnk, hnp, hnr⟩ := halloc.exists_block hp
    obtain ⟨r, hr⟩ : ∃ r, r = sizeT (num * size) := ⟨_, rfl⟩
    have hfin := n.fin_used (by simp [hnk])
    rw [← hr] at halloc hnr ⊢
    simp only [if_neg hp]
    refine ⟨(p, { s' with mem := s'.mem.fillBytes p r 0 }), B', rfl, halloc, ?_, fun _ i hi => ?_⟩
    · have hnp' : n.payload = p := hnp
      have hans₂ := hans.writeIn (s'.mem.fillBytes p r 0) hn hnp
        (fun i hi => Mem.fillBytes_of_outside _ (by omega)) fun b hb => halloc.old hb
      exact hans₂.mono (by simp)
    · exact if_pos (by dsimp only; omega)

/-- **`sfree`** of any block that is there. -/
theorem sfree_spec (h : Rep os s B) (hm : m ∈ B) (hk : m.kind ≠ .orphan) :
    ∃ s' B', sfree s m.payload = .ok s' ∧ Rep os s' B' ∧ s'.kernel = s.kernel ∧
      (∀ b ∈ B, ∀ i, b.payload ≤ i → i < b.fin → s'.mem i = s.mem i) ∧
      (m.kind = .free ∧ B' = B ∨ m.kind = .used ∧
        ∃ L R, B = L ++ m :: R ∧ B' = L ++ ⟨m.addr, m.size, .free⟩ :: R) := by
  cases hk' : m.kind with
  | orphan => exact absurd hk' hk
  | free =>
      exact ⟨s, B, h.sfree_free hm hk', h, rfl, fun _ _ _ _ _ => rfl, .inl ⟨rfl, rfl⟩⟩
  | used =>
      obtain ⟨L, R, rfl⟩ := List.append_of_mem hm
      obtain ⟨s', hrun, hrep, hquiet⟩ := h.release hk'
      exact ⟨s', _, hrun, hrep, hquiet.kernel,
        fun b hb i h1 h2 => hquiet.frame i (h.tiles.payload_notMem hb h1 h2),
        .inr ⟨rfl, L, R, rfl, rfl⟩⟩

/-- **`srealloc`** of a block that is there, with the bytes it holds. -/
theorem srealloc_spec (h : Rep os s B) (hm : m ∈ B) (hk : m.kind ≠ .orphan) (h0 : r ≠ 0)
    (hmax : r ≤ maxRequest) :
    ∃ x B', srealloc os s m.payload r = .ok x ∧ Reallocates r s.kernel.brk B m B' x.1 ∧
      Answers os {x.1} B B' s x ∧
      (x.1 ≠ 0 → ∀ i < min r m.size, x.2.mem (x.1 + i) = s.mem (m.payload + i)) := by
  have hp0 : m.payload ≠ 0 := Nat.succ_ne_zero _
  have hhead : m.payload - metaSize = m.addr := Nat.add_sub_cancel _ _
  have hrange : ¬(r = 0 ∨ maxRequest < r) := by omega
  rw [srealloc]
  simp only [if_neg hrange, if_neg hp0, hhead]
  by_cases hkeep : r ≤ m.size
  · rw [if_pos (by rw [h.size m hm]; exact hkeep)]
    exact ⟨(m.payload, s), B, rfl, .keep hkeep, (Answers.refl h hp0).mono (Set.empty_subset _),
      fun _ _ _ => rfl⟩
  rw [if_neg (by rw [h.size m hm]; exact hkeep)]
  have hlt : m.size < r := Nat.not_le.mp hkeep
  obtain ⟨⟨q, s₁⟩, B₁, hrun, halloc, hans⟩ := smalloc_spec h h0 hmax
  rw [hrun, ok_bind]
  by_cases hq : q = 0
  · subst hq
    exact ⟨(0, s₁), B₁, rfl, .null B₁ hlt halloc, hans.mono (Set.empty_subset _),
      fun hx => absurd rfl hx⟩
  simp only [if_neg hq]
  obtain ⟨n, hn, hnk, hnp, hnr⟩ := halloc.exists_block hq
  have hm₁ := halloc.mem hm hlt
  have hmn : m ≠ n := fun he => by
    rw [he] at hlt
    omega
  have hsize : s₁.get .size m.addr = m.size := hans.rep.size m hm₁
  have hnp' : n.payload = q := hnp
  have hnfin := n.fin_used (by simp [hnk])
  have hmfin := m.fin_used hk
  -- the copy stays inside the new block
  have hans₂ := hans.writeIn (s₁.mem.copyBytes q m.payload (min r m.size)) hn hnp
    (fun i hi => Mem.copyBytes_of_outside _ (by omega)) fun b hb => halloc.old hb
  obtain ⟨s₃, B₃, hrun₃, hrep₃, hk₃, hpay₃, hkind⟩ := sfree_spec hans₂.rep hm₁ hk
  have hcopied : ∀ i < min r m.size, s₃.mem (q + i) = s.mem (m.payload + i) := by
    intro i hi
    have h1 := hpay₃ n hn (q + i) (by omega) (by omega)
    have h2 := hans.payloads m hm (by simp) (m.payload + i) (by omega) (by omega)
    rw [h1, ← h2]
    change s₁.mem.copyBytes q m.payload (min r m.size) (q + i) = _
    rw [Mem.copyBytes, if_pos (by omega), Nat.add_sub_cancel_left]
  have hans₃ : Answers os {q} B B₃ s (q, s₃) := by
    refine ⟨hrep₃, fun b hb hout i h1 h2 => ?_, ?_, fun hx => absurd hx hq⟩
    · rcases halloc.old hb with hb₁ | he
      · rw [hpay₃ b hb₁ i h1 h2]
        exact hans₂.payloads b hb (by simpa using hout) i h1 h2
      · exact absurd he hout
    · rw [hk₃]
      exact hans.failures
  refine ⟨(q, s₃), B₃, ?_, ?_, hans₃, fun _ => hcopied⟩
  · rw [hsize, hrun₃]
    rfl
  · rcases hkind with ⟨hfree, rfl⟩ | ⟨hused, L, R, rfl, rfl⟩
    · exact .moveFree _ q hlt hq halloc hfree
    · exact .move L R q hlt hq halloc hused

end Others

end OsAllHw.Malloc2
