import OsAllHw.Malloc.Keeps

/-!
# `smalloc`

`Allocates r brk B B' q` is best fit, over block lists: the smallest free
block that is large enough, cut if at least 128 bytes would be left over;
else the last block grown if it is free; else a new block at the break.
The specification of `smalloc` says that it follows this relation, that
its outcome is `NULL` otherwise, and that no other block is touched.
-/

namespace OsAllHw.Malloc

open Lib

/-- A block given to a request of `r` bytes: whole, or cut in two. -/
def cut (b : Block) (r : Nat) : List Block :=
  if b.size < r + (128 + metaSize) then [{ b with free := false }]
  else [⟨b.addr, r, false⟩, ⟨b.addr + metaSize + r, b.size - r - metaSize, true⟩]

/-- The last block, if there is one, is allocated. -/
def LastUsed (B : List Block) : Prop := ∀ L b, B = L ++ [b] → b.free = false

/-- **Best fit.** From `B`, a request of `r` bytes leads to `B'` and payload `q`. -/
inductive Allocates (r brk : Nat) : List Block → List Block → Nat → Prop where
  | reuse (L R : List Block) (b : Block) (hb : b.free = true) (hr : r ≤ b.size)
      (hbest : ∀ c ∈ L ++ b :: R, c.free = true → r ≤ c.size → b.size ≤ c.size) :
      Allocates r brk (L ++ b :: R) (L ++ cut b r ++ R) b.payload
  | grow (L : List Block) (b : Block) (hb : b.free = true)
      (hnone : ∀ c ∈ L ++ [b], c.free = true → c.size < r) :
      Allocates r brk (L ++ [b]) (L ++ [⟨b.addr, r, false⟩]) b.payload
  | fresh (B : List Block) (hlast : LastUsed B) (hnone : ∀ c ∈ B, c.free = true → c.size < r) :
      Allocates r brk B (B ++ [⟨brk, r, false⟩]) (brk + metaSize)

/-! ## The search -/

section Search

variable {os : Os} {s : Heap} {S H : Set Nat} {i : Fin 128} {l : List Nat} {r : Nat}

/-- The inner loop of the search stops at the first block that fits. -/
theorem searchBucket_eq {fuel q : Nat}
    (h : Seg (s.get .histoNext) (s.get .histoPrev) q l 0) (h0 : ∀ a ∈ l, a ≠ 0)
    (hfree : ∀ a ∈ l, s.isFree a = true) (hfuel : l.length < fuel) :
    searchBucket s r fuel (l.headD 0) =
      .ok ((l.find? fun a => decide (r ≤ s.get .size a)).getD 0) := by
  induction l generalizing q fuel with
  | nil =>
      obtain ⟨fuel, rfl⟩ : ∃ n, fuel = n + 1 := ⟨fuel - 1, by omega⟩
      simp [searchBucket]
  | cons a l ih =>
      obtain ⟨fuel, rfl⟩ : ∃ n, fuel = n + 1 := ⟨fuel - 1, by omega⟩
      obtain ⟨-, hn, hrest⟩ := h
      rw [List.headD_cons, searchBucket, if_neg (h0 a (by simp))]
      by_cases hs : r ≤ s.get .size a
      · rw [if_pos ⟨hs, hfree a (by simp)⟩, List.find?_cons_of_pos (by simpa using hs)]
        rfl
      · rw [if_neg (fun hc => hs hc.1), List.find?_cons_of_neg (by simpa using hs), hn]
        exact ih hrest (fun b hb => h0 b (by simp [hb])) (fun b hb => hfree b (by simp [hb]))
          (by simpa using hfuel)

/-- One bucket: nothing fits, or the smallest that does. -/
theorem Bucket.search (h : Bucket s S i l) (hH : Headers H) (hSH : S ⊆ H)
    (hfree : ∀ a ∈ S, s.isFree a = true) :
    (searchBucket s r walkFuel (s.freeHistogram i) = .ok 0 ∧ ∀ a ∈ l, s.get .size a < r) ∨
    ∃ a ∈ l, searchBucket s r walkFuel (s.freeHistogram i) = .ok a ∧ r ≤ s.get .size a ∧
      ∀ b ∈ l, r ≤ s.get .size b → s.get .size a ≤ s.get .size b := by
  have hlH : ∀ a ∈ l, a ∈ H := fun a ha => hSH (h.mem_set ha)
  rw [h.head, searchBucket_eq h.linked (fun a ha h0 => hH.zero_notMem (h0 ▸ hlH a ha))
    (fun a ha => hfree a (h.mem_set ha)) (length_lt_walkFuel hH h.nodup hlH)]
  cases hf : l.find? (fun a => decide (r ≤ s.get .size a)) with
  | none =>
      refine .inl ⟨rfl, fun a ha => ?_⟩
      have := List.find?_eq_none.mp hf a ha
      simpa using this
  | some a =>
      obtain ⟨ha, l₁, l₂, rfl, hbefore⟩ := List.find?_eq_some_iff_append.mp hf
      refine .inr ⟨a, by simp, rfl, of_decide_eq_true ha, fun b hb hrb => ?_⟩
      -- a fitting block before `a` would have been found first
      rcases List.mem_append.mp hb with hb | hb
      · have := hbefore b hb
        simp only [Bool.not_eq_eq_eq_not, Bool.not_true, decide_eq_false_iff_not] at this
        exact absurd hrb this
      · rcases List.mem_cons.mp hb with rfl | hb
        · exact le_rfl
        · exact (List.pairwise_cons.mp (List.pairwise_append.mp h.sorted).2.1).1 b hb

/-- The outer loop, from bucket `128 - n` on. -/
theorem searchHisto_spec (hH : Headers H) (hSH : S ⊆ H) (hbin : Binned s S)
    (hfree : ∀ a ∈ S, s.isFree a = true) {n : Nat} (hn : n ≤ 128) :
    (searchHisto s r n hn = .ok 0 ∧
      ∀ a ∈ S, 128 - n ≤ s.get .size a / 1024 → s.get .size a / 1024 < 128 →
        s.get .size a < r) ∨
    ∃ a ∈ S, searchHisto s r n hn = .ok a ∧ r ≤ s.get .size a ∧
      ∀ b ∈ S, 128 - n ≤ s.get .size b / 1024 → s.get .size b / 1024 < 128 →
        r ≤ s.get .size b → s.get .size a ≤ s.get .size b := by
  induction n with
  | zero =>
      refine .inl ⟨rfl, fun a _ h1 h2 => ?_⟩
      omega
  | succ n ih =>
      obtain ⟨l, hl⟩ := hbin ⟨127 - n, by omega⟩
      rcases hl.search (r := r) hH hSH hfree with ⟨hrun, hnone⟩ | ⟨a, ha, hrun, hra, hmin⟩
      · -- nothing in this bucket: the later ones decide
        have hrest : searchHisto s r (n + 1) hn = searchHisto s r n (by omega) := by
          simp [searchHisto, hrun]
        rw [hrest]
        have hsplit : ∀ b ∈ S, 128 - (n + 1) ≤ s.get .size b / 1024 →
            s.get .size b / 1024 < 128 → r ≤ s.get .size b → 128 - n ≤ s.get .size b / 1024 := by
          intro b hb h1 h2 hrb
          by_contra hlt
          have hbl : b ∈ l := (hl.mem b).mpr ⟨hb, by show _ = 127 - n; omega⟩
          exact absurd (hnone b hbl) (by omega)
        rcases ih (by omega) with ⟨hz, hall⟩ | ⟨a, haS, hrun', hra, hmin⟩
        · refine .inl ⟨hz, fun b hb h1 h2 => ?_⟩
          by_contra hlt
          have := hall b hb (hsplit b hb h1 h2 (by omega)) h2
          omega
        · exact .inr ⟨a, haS, hrun', hra, fun b hb h1 h2 hrb =>
            hmin b hb (hsplit b hb h1 h2 hrb) h2 hrb⟩
      · have haS := hl.mem_set ha
        have ha0 : a ≠ 0 := fun h0 => hH.zero_notMem (h0 ▸ hSH haS)
        have hai : s.get .size a / 1024 = 127 - n := ((hl.mem a).mp ha).2
        refine .inr ⟨a, haS, by simp [searchHisto, hrun, ha0], hra, fun b hb h1 h2 hrb => ?_⟩
        by_cases hbl : s.get .size b / 1024 = 127 - n
        · exact hmin b ((hl.mem b).mpr ⟨hb, hbl⟩) hrb
        · omega

end Search

/-- **The search of `smalloc`** finds a smallest free block that fits. -/
theorem Rep.search {os : Os} {s : Heap} {B : List Block} (h : Rep os s B) {r : Nat}
    (hn : 128 - r / 1024 ≤ 128) :
    (searchHisto s r (128 - r / 1024) hn = .ok 0 ∧ ∀ b ∈ B, b.free = true → b.size < r) ∨
    ∃ L b R, B = L ++ b :: R ∧ searchHisto s r (128 - r / 1024) hn = .ok b.addr ∧
      b.free = true ∧ r ≤ b.size ∧
      ∀ c ∈ B, c.free = true → r ≤ c.size → b.size ≤ c.size := by
  have hfree : ∀ a ∈ freeHeads B, s.isFree a = true := by
    rintro _ ⟨b, hb, hbf, rfl⟩
    exact (h.core.flag b hb).trans hbf
  have hidx : ∀ b ∈ B, r ≤ b.size → 128 - (128 - r / 1024) ≤ b.size / 1024 ∧
      b.size / 1024 < 128 := fun b hb hrb => by
    have h1 := div_lt_of_lt_mmapSize (h.small b hb)
    have h2 : r / 1024 ≤ b.size / 1024 := Nat.div_le_div_right hrb
    omega
  rcases searchHisto_spec (r := r) h.core.headers freeHeads_subset h.binned hfree hn with
    ⟨hrun, hnone⟩ | ⟨a, ⟨b, hb, hbf, rfl⟩, hrun, hra, hmin⟩
  · refine .inl ⟨hrun, fun b hb hbf => ?_⟩
    by_contra hlt
    obtain ⟨h1, h2⟩ := hidx b hb (by omega)
    have := hnone b.addr ⟨b, hb, hbf, rfl⟩
    rw [h.core.size b hb] at this
    exact hlt (this h1 h2)
  · rw [h.core.size b hb] at hra
    obtain ⟨L, R, rfl⟩ := List.append_of_mem hb
    refine .inr ⟨L, b, R, rfl, hrun, hbf, hra, fun c hc hcf hrc => ?_⟩
    obtain ⟨h1, h2⟩ := hidx c hc hrc
    have := hmin c.addr ⟨c, hc, hcf, rfl⟩
    rw [h.core.size c hc, h.core.size b hb] at this
    exact this h1 h2 hrc

/-! ## Memory from `sbrk` -/

/-- What an allocating call answers: `NULL` after a refused `sbrk`, with
the heap as it was, or a block that `rel` admits. -/
inductive Answer (os : Os) (own : Set Nat) (B : List Block) (rel : List Block → Nat → Prop)
    (s : Heap) : Nat × Heap → Prop where
  | null (s' : Heap) (hrep : Rep os s' B) (hkeeps : Keeps os ∅ B B s s')
      (hfail : s.kernel.sbrkFailures < s'.kernel.sbrkFailures) : Answer os own B rel s (0, s')
  | block (B' : List Block) (q : Nat) (s' : Heap) (hrel : rel B' q) (hrep : Rep os s' B')
      (hkeeps : Keeps os own B B' s s') : Answer os own B rel s (q, s')

section Sbrk

variable {os : Os} {s : Heap} {L B : List Block} {b c : Block} {r : Nat}

/-- A refused `sbrk` changes nothing. -/
theorem Rep.refused (h : Rep os s B) (own : Set Nat) (rel : List Block → Nat → Prop) :
    Answer os own B rel s (0, { s with kernel := s.kernel.refused }) := by
  refine .null _ (h.setKernel le_rfl h.core.brk_le) ?_ (Nat.lt_succ_self _)
  exact ⟨rfl, rfl, rfl, rfl, Nat.le_succ _, fun _ _ => rfl,
    fun b hb _ _ => ⟨hb, fun _ _ _ => rfl⟩, fun h0 => absurd h0 (Nat.succ_ne_zero _), 0, rfl⟩

theorem LastUsed.allListEnd (h : Rep os s B) (hlast : LastUsed B) :
    s.allListEnd = 0 ∨ s.isFree s.allListEnd = false := by
  rcases List.eq_nil_or_concat B with rfl | ⟨L, b, rfl⟩
  · exact .inl h.core.last
  · rw [List.concat_eq_append] at h hlast
    rw [h.core.last, lastAddr_concat, h.core.flag b (by simp)]
    exact .inr (hlast L b rfl)

/-- **`add_node_list`** at the end of the list, which may be empty. -/
theorem Core.append (h : Core os s B) (hH : Headers (insert c.addr (heads B)))
    (hc : c.addr ∉ heads B) (hlay : Layout os.brk0 (B ++ [c]) s.kernel.brk)
    (hsize : s.get .size c.addr = c.size) (hflag : s.isFree c.addr = c.free) :
    Core os (addNodeList s c.addr s.allListEnd) (B ++ [c]) ∧
      ListStep (insert c.addr (heads B)) s (addNodeList s c.addr s.allListEnd) := by
  have hcH : c.addr ∈ insert c.addr (heads B) := Set.mem_insert _ _
  rcases List.eq_nil_or_concat B with rfl | ⟨L, b, rfl⟩
  · have hend : s.allListEnd = 0 := h.last
    have hhead : s.allListHead = 0 := h.head
    have hs' : addNodeList s c.addr s.allListEnd =
        { ((s.put .listNext c.addr 0).put .listPrev c.addr 0).put .listPrev c.addr 0 with
          allListHead := c.addr, allListEnd := c.addr } := by
      have hz : ((((s.put .listNext c.addr 0).put .listPrev c.addr 0).put .listPrev
          c.addr 0)).get .listNext c.addr = 0 := by
        simp [get_putWord hH, hcH]
      have hz' : Heap.get { ((s.put .listNext c.addr 0).put .listPrev c.addr 0).put .listPrev
          c.addr 0 with allListHead := c.addr } .listNext c.addr = 0 := hz
      rw [hend]
      simp only [addNodeList, if_true, hhead]
      exact if_pos hz'
    have hstep : ListStep (insert c.addr (heads [])) s (addNodeList s c.addr s.allListEnd) := by
      rw [hs']
      exact (((ListStep.put s _ listNext_mem hcH).trans (.put _ _ listPrev_mem hcH)).trans
        (.put _ _ listPrev_mem hcH)).trans (.ends _ c.addr c.addr)
    have hlink : ∀ f ∈ listFields, (addNodeList s c.addr s.allListEnd).get f c.addr = 0 := by
      rw [hs']
      rintro f (rfl | rfl)
      · change (((s.put .listNext c.addr 0).put .listPrev c.addr 0).put .listPrev c.addr 0).get
          .listNext c.addr = _
        simp [get_putWord hH, hcH]
      · change (((s.put .listNext c.addr 0).put .listPrev c.addr 0).put .listPrev c.addr 0).get
          .listPrev c.addr = _
        simp [get_putWord hH, hcH]
    refine ⟨⟨by rw [hstep.kernel]; exact hlay, by rw [hstep.kernel]; exact h.brk_le,
      ?_, ?_, ?_, ?_, ?_⟩, hstep⟩
    · rw [hs']; rfl
    · rw [hs']; rfl
    · exact ⟨hlink _ listPrev_mem, hlink _ listNext_mem, trivial⟩
    · rintro d hd
      obtain rfl : d = c := by simpa using hd
      rw [hstep.get hH (by simp [listFields]) hcH, hsize]
    · rintro d hd
      obtain rfl : d = c := by simpa using hd
      rw [Heap.isFree, hstep.get hH (by simp [listFields]) hcH]
      exact hflag
  · rw [List.concat_eq_append] at *
    have hend : s.allListEnd = b.addr := h.last.trans (lastAddr_concat L b)
    rw [hend, List.append_assoc]
    exact h.insertAfter hH hc (by simpa using hlay) hsize hflag

/-- **Grow the wilderness**: the last block, free and too small, becomes an
allocated block of `r` bytes. -/
theorem Rep.grow (h : Rep os s (L ++ [b])) (hb : b.free = true) (hr : r < mmapSize)
    (hnone : ∀ c ∈ L ++ [b], c.free = true → c.size < r) :
    ∃ a, sbrkWrapper os s r = .ok a ∧
      Answer os ∅ (L ++ [b]) (Allocates r s.kernel.brk (L ++ [b])) s a := by
  have hmem : b ∈ L ++ [b] := by simp
  have hms : mmapSize = 131072 := rfl
  have hbr := hnone b hmem hb
  have hbH : b.addr ∈ heads (L ++ [b]) := mem_heads hmem
  have hend : s.allListEnd = b.addr := h.core.last.trans (lastAddr_concat L b)
  have hb0 : b.addr ≠ 0 := fun h0 => h.core.headers.zero_notMem (h0 ▸ hbH)
  have hsub : subT r (s.get .size b.addr) = r - b.size := by
    rw [h.core.size b hmem]
    exact subT_of_le (by omega) (by omega)
  have hfree : s.isFree b.addr = true := (h.core.flag b hmem).trans hb
  rcases sbrk_cases os s.kernel (n := r - b.size) (by omega) with hsb | ⟨hlim, hsb⟩
  · refine ⟨_, ?_, h.refused ∅ _⟩
    simp [sbrkWrapper, hend, hb0, hfree, hsub, hsb]
  · have h1 : Rep os { s with kernel := s.kernel.moved (r - b.size) } (L ++ [b]) :=
      h.setKernel (Nat.le_add_right _ _) hlim
    obtain ⟨s2, hrun, hstep, hbin⟩ := h1.core.removeNodeHisto h1.core.headers freeHeads_subset
      h1.binned hmem (h.small b hmem) (mem_freeHeads_iff h1.core.layout hmem).symm
    have hcore2 := h1.core.of_histoStep h1.core.headers le_rfl hstep
    have hH := hcore2.headers
    have hlay : Layout os.brk0 (L ++ [{ b with size := r }]) s2.kernel.brk := by
      rw [hstep.kernel]
      obtain ⟨mid, hl1, hl2, hl3⟩ := Layout.middle_iff.mp h.core.layout
      refine Layout.middle_iff.mpr ⟨mid, hl1, hl2, ?_⟩
      change b.addr + metaSize + r ≤ s.kernel.brk + (r - b.size)
      have hl3' : b.addr + metaSize + b.size ≤ s.kernel.brk := hl3
      omega
    have hcore3 := hcore2.resize (n := r) (by unfold IsWord; omega) hlay
    have hcore4 := hcore3.setFree false
    have hnot : b.addr ∉ freeHeads (L ++ [b]) \ {b.addr} := fun hm => hm.2 rfl
    have hSH : freeHeads (L ++ [b]) \ {b.addr} ⊆ heads (L ++ [b]) :=
      Set.sdiff_subset.trans freeHeads_subset
    have hrep : Rep os ((s2.put .size b.addr r).put .isFree b.addr 0)
        (L ++ [⟨b.addr, r, false⟩]) := by
      refine ⟨hcore4, forall_mem_replace h.small hr, ?_⟩
      rw [freeHeads_take (c := ⟨b.addr, r, false⟩) h.core.layout rfl]
      exact (hbin.put_notMem hH hSH hbH hnot _ _).put_notMem hH hSH hbH hnot _ _
    have htame := (hstep.tame.trans (Tame.put s2 .size r hbH)).trans (Tame.put _ .isFree 0 hbH)
    refine ⟨_, ?_, .block _ _ _ (.grow L b hb hnone) hrep (.of_headers (H := heads (L ++ [b]))
      (fun x hx => htame.frame x hx) h.core hrep.core (fun p hp => .inl hp) ?_ ?_ ?_ ?_ ?_ ?_ ?_
      ?_)⟩
    · have hend2 : s2.allListEnd = b.addr := hcore2.last.trans (lastAddr_concat L b)
      rw [hend] at hrun
      simp [sbrkWrapper, hend, hb0, hfree, hsub, hsb, hrun, hend2, Block.payload]
    · rw [htame.kernel]; rfl
    · rw [htame.kernel]; rfl
    · rw [htame.blocksNum]
    · rw [htame.bytesNum]
    · rw [htame.kernel]; rfl
    · exact fun d hd hdf _ => mem_replace_of_ne hd (ne_of_free hdf hb)
    · intro _ k _ hk hbrk
      rw [htame.kernel, put_numOfMetadatas, put_numOfMetadatas, hstep.numOfMetadatas]
      refine ⟨by simpa using hk, ?_⟩
      change s.kernel.brk + (r - b.size) = _
      simp only [totalBytes_append, totalBytes_cons, totalBytes_nil, Block.bytes] at hbrk ⊢
      omega
    · refine ⟨0, ?_⟩
      rw [htame.kernel]
      change s.kernel.brk + (r - b.size) + _ = _
      simp only [totalBytes_append, totalBytes_cons, totalBytes_nil, Block.bytes]
      omega

/-- A header at the program break is clear of the list. -/
theorem Core.headers_brk (h : Core os s B) : Headers (insert s.kernel.brk (heads B)) := by
  have h0 := os.brk0_pos.trans_le h.layout.le
  refine h.headers.insert h0 h.brk_lt ?_
  rintro _ ⟨c, hc, rfl⟩
  exact .inl ((payload_le_fin c).trans (h.fin_le hc))

theorem Core.brk_notMem (h : Core os s B) : s.kernel.brk ∉ heads B := by
  rintro ⟨c, hc, he⟩
  have := addr_lt_fin c
  have := h.fin_le hc
  omega

/-- The six writes to a new header. -/
theorem newHeader_get {H : Set Nat} (hH : Headers H) {a : Nat} (ha : a ∈ H) (hr : IsWord r)
    (t : Heap) :
    ((((((t.put .size a r).put .isFree a 0).put .histoNext a 0).put .histoPrev a 0).put
      .listNext a 0).put .listPrev a 0).get .size a = r ∧
    ((((((t.put .size a r).put .isFree a 0).put .histoNext a 0).put .histoPrev a 0).put
      .listNext a 0).put .listPrev a 0).isFree a = false := by
  constructor
  · simp [get_putWord hH, get_putFlag hH, ha, hr]
  · simp [Heap.isFree, get_putWord hH, get_putFlag hH, ha]

/-- **`create_metadata_sbrk`**: refused, or a header at the old break that
is not on the list yet. -/
theorem Rep.createMetadata (h : Rep os s B) (hr : IsWord r) :
    createMetadataSbrk os s r false = (0, { s with kernel := s.kernel.refused }) ∨
    ∃ s', createMetadataSbrk os s r false = (s.kernel.brk, s') ∧ Rep os s' B ∧
      s'.get .size s.kernel.brk = r ∧ s'.isFree s.kernel.brk = false ∧
      Tame {s.kernel.brk} { s with kernel := s.kernel.moved metaSize } s' ∧
      s.kernel.brk + metaSize ≤ os.limit ∧ s'.numOfMetadatas = s.numOfMetadatas + 1 := by
  have hb0 : s.kernel.brk ≠ 0 := Nat.ne_of_gt (os.brk0_pos.trans_le h.core.layout.le)
  rcases sbrk_cases os s.kernel (n := metaSize) (by decide) with hsb | ⟨hlim, hsb⟩
  · left
    have hnaive : smallocNaive os s metaSize = (0, { s with kernel := s.kernel.refused }) := by
      rw [smallocNaive, if_neg (by decide), hsb]
    rw [createMetadataSbrk, hnaive]
    exact if_pos rfl
  · right
    have hnaive : smallocNaive os s metaSize =
        (s.kernel.brk, { s with kernel := s.kernel.moved metaSize }) := by
      rw [smallocNaive, if_neg (by decide), hsb]
    have h1 : Rep os { s with kernel := s.kernel.moved metaSize } B :=
      h.setKernel (Nat.le_add_right _ _) hlim
    have hH := h.core.headers_brk
    have hnot := h.core.brk_notMem
    have haH : s.kernel.brk ∈ insert s.kernel.brk (heads B) := Set.mem_insert _ _
    have hSH : freeHeads B ⊆ insert s.kernel.brk (heads B) :=
      freeHeads_subset.trans (Set.subset_insert _ _)
    have hnS : s.kernel.brk ∉ freeHeads B := fun hm => hnot (freeHeads_subset hm)
    -- six writes to a header that is on no list
    have hput : ∀ (t : Heap) (f : Field) (v : Nat), Rep os t B →
        Rep os (t.put f s.kernel.brk v) B := fun t f v ht =>
      ⟨ht.core.put_outside hH hnot f v, ht.small, ht.binned.put_notMem hH hSH haH hnS f v⟩
    have htame : ∀ (t : Heap) (f : Field) (v : Nat),
        Tame {s.kernel.brk} t (t.put f s.kernel.brk v) := fun t f v =>
      Tame.put t f v (Set.mem_singleton _)
    refine ⟨_, by rw [createMetadataSbrk, hnaive]; exact if_neg hb0, ?_, ?_, ?_, ?_, hlim, rfl⟩
    · exact (hput _ _ _ (hput _ _ _ (hput _ _ _ (hput _ _ _ (hput _ _ _
        (hput _ _ _ h1)))))).setNum _
    · exact (newHeader_get hH haH hr _).1
    · exact (newHeader_get hH haH hr _).2
    · exact ((((((htame _ _ _).trans (htame _ _ _)).trans (htame _ _ _)).trans
        (htame _ _ _)).trans (htame _ _ _)).trans (htame _ _ _)).setNum _

/-- **A new block** at the break. If the second `sbrk` is refused the header
stays behind, unused. -/
theorem Rep.fresh (h : Rep os s B) (hlast : LastUsed B) (hr : r < mmapSize)
    (hnone : ∀ c ∈ B, c.free = true → c.size < r) :
    ∃ a, sbrkWrapper os s r = .ok a ∧ Answer os ∅ B (Allocates r s.kernel.brk B) s a := by
  have hms : mmapSize = 131072 := rfl
  have hb0 : s.kernel.brk ≠ 0 := Nat.ne_of_gt (os.brk0_pos.trans_le h.core.layout.le)
  have hguard : ¬(s.allListEnd ≠ 0 ∧ s.isFree s.allListEnd = true) := by
    rintro ⟨h1, h2⟩
    rcases hlast.allListEnd h with h3 | h3
    · exact h1 h3
    · simp [h2] at h3
  rcases h.createMetadata (r := r) (by unfold IsWord; omega) with
    hmk | ⟨s1, hmk, hrep1, hsize1, hflag1, htame1, hlim1, hnum1⟩
  · refine ⟨_, ?_, h.refused ∅ _⟩
    rw [sbrkWrapper, if_neg hguard, hmk]
    rfl
  have hk1 : s1.kernel = s.kernel.moved metaSize := htame1.kernel
  have hframe1 : SameOff (headerBytes {s.kernel.brk}) s s1 := fun x hx => htame1.frame x hx
  rcases sbrk_cases os s1.kernel (n := r) (by omega) with hsb | ⟨hlim2, hsb⟩
  · have hrun : sbrkWrapper os s r = .ok (0, { s1 with kernel := s1.kernel.refused }) := by
      rw [sbrkWrapper, if_neg hguard, hmk]
      refine (if_neg hb0).trans ?_
      rw [hsb]
      rfl
    rw [hrun]
    have hrep2 : Rep os { s1 with kernel := s1.kernel.refused } B :=
      hrep1.setKernel le_rfl hrep1.core.brk_le
    have hfail : s.kernel.sbrkFailures < s1.kernel.refused.sbrkFailures := by
      rw [hk1]
      exact Nat.lt_succ_self _
    refine ⟨_, rfl, .null _ hrep2 (.of_headers (H := {s.kernel.brk}) hframe1 h.core hrep2.core
      ?_ ?_ ?_ htame1.blocksNum htame1.bytesNum hfail.le (fun b hb _ _ => hb) ?_ ?_) hfail⟩
    · rintro _ rfl
      exact .inr (.inr ⟨le_rfl, hlim1⟩)
    · change s1.kernel.maps = _
      rw [hk1]; rfl
    · change s1.kernel.munmaps = _
      rw [hk1]; rfl
    · exact fun h0 => absurd h0 (Nat.succ_ne_zero _)
    · refine ⟨1, ?_⟩
      change s1.kernel.brk + _ = _
      rw [hk1]
      exact Nat.add_right_comm _ _ _
  · have hrun : sbrkWrapper os s r = .ok (s1.kernel.brk, addNodeList
        { s1 with kernel := s1.kernel.moved r } s.kernel.brk s1.allListEnd) := by
      rw [sbrkWrapper, if_neg hguard, hmk]
      refine (if_neg hb0).trans ?_
      rw [hsb]
      rfl
    rw [hrun]
    have hbrk1 : s1.kernel.brk = s.kernel.brk + metaSize := by rw [hk1]; rfl
    obtain ⟨s2, hs2⟩ : ∃ s2, s2 = { s1 with kernel := s1.kernel.moved r } := ⟨_, rfl⟩
    have hrep2 : Rep os s2 B := hs2 ▸ hrep1.setKernel (Nat.le_add_right _ _) hlim2
    have hbrk2 : s2.kernel.brk = s.kernel.brk + metaSize + r := by rw [hs2, ← hbrk1]; rfl
    have hH := h.core.headers_brk
    obtain ⟨hcore3, hstep3⟩ := hrep2.core.append (c := ⟨s.kernel.brk, r, false⟩) hH
      h.core.brk_notMem (by
        rw [hbrk2]
        exact Layout.middle_iff.mpr ⟨_, h.core.layout, le_rfl, le_rfl⟩)
      (by rw [hs2]; exact hsize1) (by rw [hs2]; exact hflag1)
    have hfree : freeHeads (B ++ [⟨s.kernel.brk, r, false⟩]) = freeHeads B := by
      ext a
      simp [mem_freeHeads_append, mem_freeHeads_cons, freeHeads_nil]
    have hrep3 : Rep os (addNodeList s2 s.kernel.brk s2.allListEnd)
        (B ++ [⟨s.kernel.brk, r, false⟩]) := by
      refine ⟨hcore3, ?_, ?_⟩
      · intro d hd
        rcases List.mem_append.mp hd with hd | hd
        · exact h.small d hd
        · rw [List.mem_singleton.mp hd]
          exact hr
      · rw [hfree]
        exact hrep2.binned.of_listStep hH (freeHeads_subset.trans (Set.subset_insert _ _)) hstep3
    have htame3 := hstep3.tame
    have hk2 : s2.kernel = (s.kernel.moved metaSize).moved r := by rw [hs2, ← hk1]
    refine ⟨(s1.kernel.brk, addNodeList s2 s.kernel.brk s2.allListEnd), by rw [hs2], ?_⟩
    rw [hbrk1]
    refine .block _ _ _ (.fresh B hlast hnone) hrep3 (.of_headers
      (H := insert s.kernel.brk (heads B)) ?_ h.core hrep3.core ?_ ?_ ?_ ?_ ?_ ?_ ?_ ?_ ?_)
    · refine SameOff.trans ?_ htame3.frame
      rw [hs2]
      exact fun x hx => hframe1 x fun hm => hx (headerBytes_mono (by simp) hm)
    · rintro p (rfl | hp)
      · exact .inr (.inr ⟨le_rfl, hlim1⟩)
      · exact .inl hp
    · rw [hstep3.kernel, hk2]; rfl
    · rw [hstep3.kernel, hk2]; rfl
    · rw [htame3.blocksNum, hs2]; exact htame1.blocksNum
    · rw [htame3.bytesNum, hs2]; exact htame1.bytesNum
    · rw [hstep3.kernel, hk2]; rfl
    · exact fun d hd _ _ => List.mem_append_left _ hd
    · intro _ k _ hk hbrk
      rw [hstep3.numOfMetadatas, hstep3.kernel, hbrk2, hs2]
      refine ⟨?_, ?_⟩
      · change s1.numOfMetadatas = _
        rw [hnum1, hk, List.length_append, List.length_singleton]
        omega
      · simp only [totalBytes_append, totalBytes_cons, totalBytes_nil, Block.bytes]
        omega
    · refine ⟨0, ?_⟩
      rw [hstep3.kernel, hbrk2]
      simp only [totalBytes_append, totalBytes_cons, totalBytes_nil, Block.bytes]
      omega

end Sbrk

/-! ## The call -/

section Call

variable {v : Version} {os : Os} {s : Heap} {L R B : List Block} {b : Block} {r size : Nat}

theorem cut_whole (h : b.size < r + (128 + metaSize)) :
    L ++ cut b r ++ R = L ++ { b with free := false } :: R := by
  rw [cut, if_pos h, List.append_assoc]
  rfl

theorem cut_split (h : r + (128 + metaSize) ≤ b.size) :
    L ++ cut b r ++ R = L ++ ⟨b.addr, r, false⟩ ::
      ⟨b.addr + metaSize + r, b.size - r - metaSize, true⟩ :: R := by
  rw [cut, if_neg (by omega), List.append_assoc]
  rfl

theorem Core.subT_size (h : Core os s B) (hb : b ∈ B) (hr : r ≤ b.size) :
    subT (s.get .size b.addr) r = b.size - r := by
  have h1 := h.fin_le hb
  have h2 := h.brk_lt
  unfold Block.fin at h1
  rw [h.size b hb]
  exact subT_of_le hr (by omega)

/-- The part of `smalloc` after a hit. -/
theorem Rep.reuse (h : Rep os s (L ++ b :: R)) (hb : b.free = true) (hr : r ≤ b.size) :
    ∃ s', (if subT (s.get .size b.addr) r < 128 + metaSize then do
        let s ← removeNodeHisto s b.addr
        return (b.addr + metaSize, s.put .isFree b.addr 0)
      else do
        let s ← splitBlock s b.addr r
        return (b.addr + metaSize, s)) = .ok (b.payload, s') ∧
      Rep os s' (L ++ cut b r ++ R) ∧ Keeps os ∅ (L ++ b :: R) (L ++ cut b r ++ R) s s' ∧
      Tame (insert (b.addr + metaSize + r) (heads (L ++ b :: R))) s s' ∧
      s'.numOfMetadatas + 1 = s.numOfMetadatas + (cut b r).length := by
  rw [h.core.subT_size (by simp) hr]
  by_cases hsmall : b.size < r + (128 + metaSize)
  · obtain ⟨s', hrun, hrep, htame, hnum⟩ := h.take hb
    obtain ⟨s'', hrun', -, hkeeps, -⟩ := h.take_keeps hb
    obtain rfl : s' = s'' := Except.ok.inj (hrun.symm.trans hrun')
    rw [if_pos (by omega), hrun, cut_whole hsmall]
    refine ⟨_, rfl, hrep, hkeeps, htame.mono (Set.subset_insert _ _), ?_⟩
    rw [put_numOfMetadatas, hnum, cut, if_pos hsmall]
    rfl
  · have hfit : r + metaSize ≤ b.size := by omega
    obtain ⟨s', hrun, hrep, htame, hnum⟩ := h.split hfit
    obtain ⟨s'', hrun', -, hkeeps, -⟩ := h.split_keeps ∅ hfit (.inl hb)
    obtain rfl : s' = s'' := Except.ok.inj (hrun.symm.trans hrun')
    rw [if_neg (by omega), hrun, cut_split (by omega)]
    refine ⟨_, rfl, hrep, hkeeps, htame, ?_⟩
    rw [hnum, cut, if_neg hsmall]
    rfl

/-- A smallest block of `B` among the free ones that fit. -/
structure BestFit (r : Nat) (B : List Block) (b : Block) : Prop where
  free : b.free = true
  fits : r ≤ b.size
  least : ∀ c ∈ B, c.free = true → r ≤ c.size → b.size ≤ c.size

/-- The size check passes below `MMAP_SIZE`. -/
theorem in_range {r : Nat} (h0 : r ≠ 0) (hlt : r < mmapSize) : ¬(r = 0 ∨ maxRequest < r) := by
  have hmm : mmapSize = 131072 := rfl
  have hmr : maxRequest = 100000000 := rfl
  omega

/-- `smalloc` where a free block fits. -/
theorem smalloc_found (v : Version) (size : Nat) (h : Rep os s B) (h0 : v.round size ≠ 0)
    (hlt : v.round size < mmapSize) (hfit : ∃ c ∈ B, c.free = true ∧ v.round size ≤ c.size) :
    ∃ L b R s', B = L ++ b :: R ∧ BestFit (v.round size) B b ∧
      smalloc v os s size = .ok (b.payload, s') ∧
      Rep os s' (L ++ cut b (v.round size) ++ R) ∧
      Keeps os ∅ B (L ++ cut b (v.round size) ++ R) s s' ∧
      Tame (insert (b.addr + metaSize + v.round size) (heads B)) s s' ∧
      s'.numOfMetadatas + 1 = s.numOfMetadatas + (cut b (v.round size)).length := by
  have hmax := in_range h0 hlt
  rw [smalloc]
  simp only [if_neg hmax, if_neg (Nat.not_le.mpr hlt)]
  rcases h.search (r := v.round size) (by omega) with
    ⟨-, hnone⟩ | ⟨L, b, R, rfl, hrun, hb, hr, hbest⟩
  · obtain ⟨c, hc, hcf, hcr⟩ := hfit
    exact absurd (hnone c hc hcf) (Nat.not_lt.mpr hcr)
  · have hb0 : b.addr ≠ 0 := fun h0 =>
      h.core.headers.zero_notMem (h0 ▸ mem_heads (b := b) (by simp))
    rw [hrun, ok_bind, if_neg hb0]
    obtain ⟨s', hreuse, hrest⟩ := h.reuse hb hr
    exact ⟨L, b, R, s', rfl, ⟨hb, hr, hbest⟩, hreuse, hrest⟩

/-- `smalloc` where none does. -/
theorem smalloc_none (v : Version) (size : Nat) (h : Rep os s B) (h0 : v.round size ≠ 0)
    (hlt : v.round size < mmapSize) (hnone : ∀ c ∈ B, c.free = true → c.size < v.round size) :
    smalloc v os s size = sbrkWrapper os s (v.round size) := by
  have hmax := in_range h0 hlt
  rw [smalloc]
  simp only [if_neg hmax, if_neg (Nat.not_le.mpr hlt)]
  rcases h.search (r := v.round size) (by omega) with
    ⟨hrun, -⟩ | ⟨L, b, R, rfl, -, hb, hr, -⟩
  · rw [hrun, ok_bind, if_pos rfl]
  · exact absurd (hnone b (by simp) hb) (Nat.not_lt.mpr hr)

/-- **`smalloc`** below `MMAP_SIZE` is best fit. -/
theorem smalloc_small (v : Version) (size : Nat) (h : Rep os s B) (h0 : v.round size ≠ 0)
    (hlt : v.round size < mmapSize) :
    ∃ a, smalloc v os s size = .ok a ∧
      Answer os ∅ B (Allocates (v.round size) s.kernel.brk B) s a := by
  by_cases hfit : ∃ c ∈ B, c.free = true ∧ v.round size ≤ c.size
  · obtain ⟨L, b, R, s', rfl, hbest, hrun, hrep, hkeeps, -, -⟩ := smalloc_found v size h h0 hlt hfit
    exact ⟨_, hrun, .block _ _ _ (.reuse L R b hbest.free hbest.fits hbest.least) hrep hkeeps⟩
  · have hnone : ∀ c ∈ B, c.free = true → c.size < v.round size := fun c hc hcf =>
      Nat.not_le.mp fun hcr => hfit ⟨c, hc, hcf, hcr⟩
    rw [smalloc_none v size h h0 hlt hnone]
    by_cases hlast : LastUsed B
    · exact h.fresh hlast hlt hnone
    · simp only [LastUsed, not_forall] at hlast
      obtain ⟨L, b, rfl, hb⟩ := hlast
      exact h.grow (by simpa using hb) hlt hnone

end Call

end OsAllHw.Malloc
