import OsAllHw.Malloc.Runs

/-!
# The heap list tiles the data segment

As long as requests stay below `MMAP_SIZE` and `sbrk` is not refused, the
blocks of `malloc_4.cpp` fill the data segment without a gap, so the two
byte counts of the statistics add up to what `sbrk` gave. No two free blocks
are neighbours either, but for one exception: `srealloc` can split a block
in front of a free one and leaves the two parts apart.
-/

namespace OsAllHw.Malloc

open Lib

/-! ## The statistics -/

section Statistics

variable {os : Os} {s : Heap} {B : List Block} {l : List Nat} {q : Nat}

/-- A loop of the statistics adds up what its nodes contribute. -/
theorem walkAllList_eq (add : Nat → Nat) (res fuel : Nat)
    (h : Seg (s.get .listNext) (s.get .listPrev) q l 0) (h0 : ∀ a ∈ l, a ≠ 0)
    (hfuel : l.length < fuel) (hsum : res + (l.map add).sum < 2 ^ 64) :
    walkAllList s add fuel (l.headD 0) res = .ok (res + (l.map add).sum) := by
  induction l generalizing q res fuel with
  | nil =>
      obtain ⟨fuel, rfl⟩ : ∃ n, fuel = n + 1 := ⟨fuel - 1, by omega⟩
      simp [walkAllList]
  | cons a l ih =>
      obtain ⟨fuel, rfl⟩ : ∃ n, fuel = n + 1 := ⟨fuel - 1, by omega⟩
      obtain ⟨-, hn, hrest⟩ := h
      rw [List.map_cons, List.sum_cons] at hsum ⊢
      rw [List.headD_cons, walkAllList, if_neg (h0 a (by simp)), hn, sizeT_of_lt (by omega),
        ih _ _ hrest (fun b hb => h0 b (by simp [hb])) (by simpa using hfuel) (by omega),
        Nat.add_assoc]

theorem sum_sizes (B : List Block) :
    (B.map Block.size).sum + metaSize * B.length = totalBytes B := by
  induction B with
  | nil => rfl
  | cons b B ih =>
      simp only [List.map_cons, List.sum_cons, List.length_cons, totalBytes_cons, Block.bytes]
      rw [← ih, Nat.mul_succ]
      omega

/-- A statistics loop over the heap list, adding no more for a block than it
takes. -/
theorem Core.walk (h : Core os s B) {add : Nat → Nat} {g : Block → Nat}
    (hadd : ∀ b ∈ B, add b.addr = g b) (hg : ∀ b ∈ B, g b ≤ b.bytes) :
    walkAllList s add walkFuel s.allListHead 0 = .ok (B.map g).sum := by
  have hmem : ∀ a ∈ B.map Block.addr, a ∈ heads B := fun a ha => mem_map_addr.mp ha
  have h0 : ∀ a ∈ B.map Block.addr, a ≠ 0 := fun a ha h0 =>
    h.headers.zero_notMem (h0 ▸ hmem a ha)
  have hsum : (B.map Block.addr).map add = B.map g := by
    rw [List.map_map]
    exact List.map_congr_left hadd
  have hlt : (B.map g).sum < 2 ^ 64 := by
    have h1 : (B.map g).sum ≤ totalBytes B := List.sum_le_sum hg
    have h2 := h.layout.total_le
    have h3 := h.brk_lt
    omega
  have hwalk := walkAllList_eq add 0 walkFuel h.linked h0
    (length_lt_walkFuel h.headers h.layout.nodup hmem) (by rw [hsum]; omega)
  rw [hsum, Nat.zero_add] at hwalk
  rw [h.head, firstAddr, hwalk]

/-- `_num_allocated_bytes` when nothing is mapped. -/
theorem Core.numAllocatedBytes (h : Core os s B) (hbytes : s.mmapedBytesNum = 0) :
    Malloc.numAllocatedBytes s = .ok (B.map Block.size).sum := by
  have hlt : (B.map Block.size).sum < 2 ^ 64 := by
    have h1 := sum_sizes B
    have h2 := h.layout.total_le
    have h3 := h.brk_lt
    omega
  rw [Malloc.numAllocatedBytes, h.walk h.size fun b _ => Nat.le_add_left _ _, ok_bind, hbytes,
    Nat.add_zero, sizeT_of_lt hlt]
  rfl

end Statistics

/-! ## Tiling -/

/-- The heap list is `B`, and `B` fills the data segment exactly. -/
structure TiledBy (os : Os) (s : Heap) (B : List Block) : Prop where
  list : Core os s B
  increasing : (B.map Block.addr).Pairwise (· < ·)
  tiles : Tiles os.brk0 B s.kernel.brk
  num : s.numOfMetadatas = B.length
  disjoint : B.Pairwise fun b c => b.fin ≤ c.addr
  bytes : ∃ n, numAllocatedBytes s = .ok n ∧
    n + numMetaDataBytes s = s.kernel.brk - os.brk0

theorem Inv.tiledBy {os : Os} {w : World} {B : List Block} (h : Inv os w B)
    (hmaps : w.heap.kernel.maps = []) (h0 : w.heap.kernel.sbrkFailures = 0) :
    TiledBy os w.heap B := by
  obtain ⟨hnum, hbrk⟩ := h.count h0
  rw [hmaps, List.length_nil, Nat.add_zero] at hnum
  have hbytes : w.heap.mmapedBytesNum = 0 := by
    rw [h.mapped.bytesNum, hmaps]
    rfl
  have hcore := h.rep.core
  refine ⟨hcore, ?_, hcore.layout.tiles hbrk, hnum, hcore.layout.pairwise,
    _, hcore.numAllocatedBytes hbytes, ?_⟩
  · rw [List.pairwise_map]
    exact hcore.layout.pairwise.imp fun {b c} hbc => (addr_lt_fin b).trans_le hbc
  · have hword : B.length * metaSize < 2 ^ 64 := by
      have h1 := length_le_totalBytes B
      have h2 := hcore.layout.total_le
      have h3 := hcore.brk_lt
      rw [Nat.mul_comm] at h1
      omega
    have hmeta : numMetaDataBytes w.heap = metaSize * B.length := by
      rw [numMetaDataBytes, hnum, sizeT_of_lt hword, Nat.mul_comm]
    rw [hmeta, sum_sizes, hbrk, Nat.add_sub_cancel_left]

/-- **Tiling.** After every run of small requests in which `sbrk` was never
refused, the heap list tiles the data segment. The run can only end early
in `add_node_histo`, with a block too large for the histogram. -/
theorem heap_tiles (os : Os) (mem : Mem) (es : List Event)
    (h : Throughout .malloc4 os mem (fun w e => Legal w e ∧ Small .malloc4 e) es) :
    Outcome (fun w => w.heap.kernel.sbrkFailures = 0 → ∃ B, TiledBy os w.heap B)
      (fun f => f = .addIndex) (run .malloc4 os mem es) := by
  refine (run_small (h.imp fun w e hw => ⟨hw.1, hw.2, .inl rfl⟩)).imp ?_ fun _ hf => hf
  rintro w ⟨B, hinv, hmaps⟩ h0
  exact ⟨B, hinv.tiledBy hmaps h0⟩

/-- An operating system that refuses nothing. -/
def Os.generous : Os :=
  { Os.refusing fun _ => false with mmapAt := fun n => some (2 ^ 41 + n * 2 ^ 30) }

/-- Splits, merges on both sides, a grown wilderness. -/
def mixedEvents : List Event :=
  [.smalloc 1000, .smalloc 304, .smalloc 1000, .sfree 4144, .smalloc 100, .sfree 5192,
    .srealloc 4144 200, .srealloc 5544 3000, .scalloc 10 10, .sfree 4144, .sfree 5544]

set_option maxRecDepth 100000 in
theorem heap_tiles_mixed : ∃ w, run .malloc4 .generous (fun _ => 0) mixedEvents = .ok w ∧
    w.heap.kernel.sbrkFailures = 0 ∧ ∃ B, TiledBy .generous w.heap B := by
  have hok : Outcome (fun w => w.heap.kernel.sbrkFailures = 0) (fun _ => False)
      (run .malloc4 .generous (fun _ => 0) mixedEvents) := by decide +kernel
  obtain ⟨w, hw, h0⟩ := hok.exists_ok
  have htiles := heap_tiles .generous (fun _ => 0) mixedEvents (by decide +kernel)
  rw [hw] at htiles
  exact ⟨w, hw, h0, htiles h0⟩

/-! ## Coalescing -/

section Coalescing

variable {os : Os} {s : Heap} {B : List Block} {a : Nat}

/-- The list read from memory: it starts at `all_list_head`. -/
theorem Core.head_mem (h : Core os s B) (h0 : s.allListHead ≠ 0) : s.allListHead ∈ heads B := by
  rw [h.head] at h0 ⊢
  exact (firstAddr_mem_or B).resolve_left fun hb => h0 hb.1

/-- It is closed under `list_next`, and two neighbours are not both free if
`B` is coalesced. -/
theorem Core.next_mem (h : Core os s B) (ha : a ∈ heads B) (h0 : s.get .listNext a ≠ 0) :
    s.get .listNext a ∈ heads B ∧
      (Coalesced B → ¬(s.isFree a = true ∧ s.isFree (s.get .listNext a) = true)) := by
  obtain ⟨b, hb, rfl⟩ := ha
  obtain ⟨L, R, rfl⟩ := List.append_of_mem hb
  rw [h.links.2] at h0 ⊢
  cases R with
  | nil => exact absurd rfl h0
  | cons c R =>
      have hc : c ∈ L ++ b :: c :: R := by simp
      refine ⟨⟨c, hc, rfl⟩, fun hco => ?_⟩
      rw [firstAddr_cons, h.flag b hb, h.flag c hc]
      rintro ⟨hbf, hcf⟩
      have hz := (hco.split_at.2.2 hbf).2
      simp [freeHeadBytes, hcf] at hz

end Coalescing

/-- **Coalescing.** After every run of small requests whose merges fit and
in which `srealloc` never splits a block in front of a free one, no two
neighbours on the heap list are both free. -/
theorem no_adjacent_free (os : Os) (mem : Mem) (es : List Event)
    (h : Throughout .malloc4 os mem (fun w e => Legal w e ∧ Small .malloc4 e ∧
      MergeFits .malloc4 os w e ∧ SplitClear .malloc4 w e) es) :
    ∃ w, run .malloc4 os mem es = .ok w ∧ ∃ B, Core os w.heap B ∧ Coalesced B := by
  have hrun := runFrom_outcome (I := fun w => ∃ B, Inv os w B ∧ w.heap.kernel.maps = [] ∧
    Coalesced B) (F := fun _ => False) ?_ ⟨[], Inv.init os mem, rfl, .nil⟩ h
  · obtain ⟨w, hw, B, hinv, -, hco⟩ := hrun.exists_ok
    exact ⟨w, hw, B, hinv.rep.core, hco⟩
  · rintro w e ⟨B, hinv, hmaps, hco⟩ ⟨hlegal, hsmall, hfits, hclear⟩
    obtain ⟨w', B', hw', hstep⟩ :=
      (exec_step hinv hlegal (hinv.noMappedSplit hmaps hlegal) (.inl rfl)).1 hfits
    rw [hw']
    exact ⟨B', hstep.inv, hstep.unmapped hsmall hmaps, hstep.coalesced hclear hco⟩

set_option maxRecDepth 100000 in
theorem no_adjacent_free_mixed : ∃ w, run .malloc4 .generous (fun _ => 0) mixedEvents = .ok w ∧
    ∃ B, Core .generous w.heap B ∧ Coalesced B :=
  no_adjacent_free .generous (fun _ => 0) mixedEvents (by decide +kernel)

set_option maxRecDepth 100000 in
/-- Three blocks, the middle one released, the first one shrunk: the part
cut off and the released block are free neighbours. -/
theorem adjacent_free_after_shrink :
    Throughout .malloc4 .generous (fun _ => 0) (fun w e => Legal w e ∧ Small .malloc4 e)
      [.smalloc 1000, .smalloc 1000, .smalloc 100, .sfree 5192, .srealloc 4144 100] ∧
    ∃ w, run .malloc4 .generous (fun _ => 0)
        [.smalloc 1000, .smalloc 1000, .smalloc 100, .sfree 5192, .srealloc 4144 100] = .ok w ∧
      w.heap.kernel.sbrkFailures = 0 ∧ ¬∃ B, Core .generous w.heap B ∧ Coalesced B := by
  refine ⟨by decide +kernel, ?_⟩
  have hok : Outcome (fun w => w.heap.kernel.sbrkFailures = 0 ∧ w.heap.allListHead ≠ 0 ∧
      w.heap.get .listNext w.heap.allListHead ≠ 0 ∧
      w.heap.get .listNext (w.heap.get .listNext w.heap.allListHead) ≠ 0 ∧
      w.heap.isFree (w.heap.get .listNext w.heap.allListHead) = true ∧
      w.heap.isFree (w.heap.get .listNext (w.heap.get .listNext w.heap.allListHead)) = true)
      (fun _ => False) (run .malloc4 .generous (fun _ => 0)
        [.smalloc 1000, .smalloc 1000, .smalloc 100, .sfree 5192, .srealloc 4144 100]) := by
    decide +kernel
  obtain ⟨w, hw, h0, h1, h2, h3, hf2, hf3⟩ := hok.exists_ok
  refine ⟨w, hw, h0, ?_⟩
  rintro ⟨B, hcore, hco⟩
  have hm2 := (hcore.next_mem (hcore.head_mem h1) h2).1
  exact (hcore.next_mem hm2 h3).2 hco ⟨hf2, hf3⟩

end OsAllHw.Malloc
