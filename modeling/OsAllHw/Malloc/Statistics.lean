import OsAllHw.Malloc.Tiling

/-!
# What the statistics say

The statistics of `malloc_3.cpp` and `malloc_4.cpp` next to what the client
knows, its pointers and their sizes, and to what the kernel has handed out.
-/

namespace OsAllHw.Malloc

open Lib

/-- **The accounts.** What the statistics functions return: every block is one
of the client's or free, and every byte from the kernel is in a block or in a
header. -/
structure Accounts (os : Os) (w : World) (blocks freeBlocks bytes freeBytes : Nat) : Prop where
  countsBlocks : numAllocatedBlocks w.heap = .ok blocks
  countsFree : numFreeBlocks w.heap = .ok freeBlocks
  countsBytes : numAllocatedBytes w.heap = .ok bytes
  countsFreeBytes : numFreeBytes w.heap = .ok freeBytes
  pointers : blocks = w.live.length + freeBlocks
  sizes : bytes = (w.live.map w.sizeOf).sum + freeBytes
  headers : w.heap.kernel.sbrkFailures = 0 → numMetaDataBytes w.heap = blocks * sizeMetaData
  obtained : w.heap.kernel.sbrkFailures = 0 → bytes + numMetaDataBytes w.heap =
    (w.heap.kernel.brk - os.brk0) + (w.heap.kernel.maps.map Prod.snd).sum

/-- The blocks in use. -/
def usedBlocks (B : List Block) : List Block := B.filter fun b => !b.free

section Accounts

variable {os : Os} {s : Heap} {w : World} {B : List Block}

/-! ## Sums over the heap list -/

theorem sum_used (f : Block → Nat) (B : List Block) :
    ((usedBlocks B).map f).sum + (B.map fun b => if b.free then f b else 0).sum =
      (B.map f).sum := by
  induction B with
  | nil => rfl
  | cons b B ih =>
      rw [usedBlocks] at *
      cases hb : b.free with
      | true =>
          rw [List.filter_cons_of_neg (by simp [hb])]
          simp only [List.map_cons, List.sum_cons, hb, if_true]
          omega
      | false =>
          rw [List.filter_cons_of_pos (by simp [hb])]
          simp only [List.map_cons, List.sum_cons, hb, Bool.false_eq_true, if_false]
          omega

theorem length_used (B : List Block) :
    (usedBlocks B).length + (B.map fun b => b.free.toNat).sum = B.length := by
  have hone := sum_used (fun _ => 1) B
  have hfree : (B.map fun b => b.free.toNat) = B.map fun b => if b.free then 1 else 0 :=
    List.map_congr_left fun b _ => by cases b.free <;> rfl
  simpa [hfree] using hone

theorem Core.numFreeBlocks (h : Core os s B) :
    Malloc.numFreeBlocks s = .ok (B.map fun b => b.free.toNat).sum :=
  h.walk (fun b hb => by rw [h.flag b hb]) fun b _ =>
    b.free.toNat_le.trans (Nat.le_add_right_of_le (by decide))

theorem Core.numFreeBytes (h : Core os s B) :
    Malloc.numFreeBytes s = .ok (B.map fun b => if b.free then b.size else 0).sum := by
  refine h.walk (fun b hb => by rw [h.flag b hb, h.size b hb]) fun b _ => ?_
  split
  · exact Nat.le_add_left _ _
  · exact Nat.zero_le _

/-! ## The client's pointers -/

/-- The live pointers are those of the blocks in use and of the mappings, each
once. -/
theorem Inv.live_perm (h : Inv os w B) :
    w.live.Perm ((usedBlocks B).map Block.payload ++
      w.heap.kernel.maps.map fun r => r.1 + metaSize) := by
  have hlay := h.rep.core.layout
  have hused : ((usedBlocks B).map Block.payload).Nodup := by
    refine List.Nodup.map_on (fun b hb c hc he => ?_) (hlay.nodup.of_map.filter _)
    exact hlay.eq_of_addr (List.mem_of_mem_filter hb) (List.mem_of_mem_filter hc)
      (payload_inj.mp he)
  have hmaps : (w.heap.kernel.maps.map fun r => r.1 + metaSize).Nodup := by
    refine List.Nodup.map_on (fun r hr t ht he => ?_) h.mapped.nodup
    by_contra hne
    have hsymm : Std.Symm Apart := ⟨fun _ _ => Apart.symm⟩
    have hapart := h.mapped.apart.forall hr ht hne
    have hr2 := (h.mapped.size r hr).1
    have ht2 := (h.mapped.size t ht).1
    have hms : metaSize = 48 := rfl
    unfold Apart at hapart
    omega
  refine (List.perm_ext_iff_of_nodup h.nodup (hused.append hmaps ?_)).mpr fun p => ?_
  · intro p hp hp'
    obtain ⟨b, hb, rfl⟩ := List.mem_map.mp hp
    obtain ⟨r, hr, he⟩ := List.mem_map.mp hp'
    exact h.mapped.payload_notMem h.rep (List.mem_of_mem_filter hb) ⟨r, hr, he⟩
  · rw [h.live p, List.mem_append, List.mem_map, List.mem_map]
    refine or_congr (exists_congr fun b => ?_) Iff.rfl
    simp [usedBlocks, and_assoc]

/-- What a client has of the heap list and of the mappings. -/
theorem Inv.sum_live (h : Inv os w B) :
    (w.live.map w.sizeOf).sum = ((usedBlocks B).map Block.size).sum + w.heap.mmapedBytesNum := by
  have hused : (usedBlocks B).map (w.sizeOf ∘ Block.payload) = (usedBlocks B).map Block.size :=
    List.map_congr_left fun b hb => h.sizeOf_block (List.mem_of_mem_filter hb)
  rw [(h.live_perm.map w.sizeOf).sum_eq, List.map_append, List.sum_append, List.map_map, hused,
    h.mapped.bytesNum, List.map_map]
  refine congrArg _ (congrArg List.sum (List.map_congr_left fun r _ => ?_))
  rw [Function.comp, World.sizeOf, Nat.add_sub_cancel]

/-- The data segment and the mappings lie apart in one address space. -/
theorem Inv.bytes_lt (h : Inv os w B) :
    totalBytes B + (w.heap.kernel.maps.map Prod.snd).sum < 2 ^ 64 := by
  have htotal := h.rep.core.layout.total_le
  have hbrk := h.rep.core.brk_le
  have hlt := h.rep.core.brk_lt
  have hle : (((os.brk0, totalBytes B) :: w.heap.kernel.maps).map Prod.snd).sum ≤ 2 ^ 64 - 1 := by
    refine sum_lengths_le (List.pairwise_cons.mpr ⟨fun r hr => ?_, h.mapped.apart⟩) fun r hr => ?_
    · have hrange := (h.mapped.range r hr).2.2
      change os.brk0 + totalBytes B ≤ r.1 ∨ r.1 + r.2 ≤ os.brk0
      omega
    · obtain rfl | hr := List.mem_cons.mp hr
      · change os.brk0 + totalBytes B ≤ _
        omega
      · have hrange := (h.mapped.range r hr).2.1
        omega
  rw [List.map_cons, List.sum_cons] at hle
  omega

/-- **The accounts balance** wherever the invariant holds. -/
theorem Inv.accounts (h : Inv os w B) :
    ∃ blocks freeBlocks bytes freeBytes, Accounts os w blocks freeBlocks bytes freeBytes := by
  have hcore := h.rep.core
  have hlt := h.bytes_lt
  have hsizes := sum_sizes B
  have hlengths := h.mapped.lengths
  have hheaders : metaSize * B.length + metaSize * w.heap.kernel.maps.length =
      (B.length + w.heap.kernel.maps.length) * metaSize := by
    rw [← Nat.mul_add, Nat.mul_comm]
  have hcount : B.length + w.heap.kernel.maps.length ≤
      (B.length + w.heap.kernel.maps.length) * metaSize := Nat.le_mul_of_pos_right _ (by decide)
  have hlive := h.live_perm.length_eq
  rw [List.length_append, List.length_map, List.length_map] at hlive
  have hused := length_used B
  have husedBytes := sum_used Block.size B
  have hsum := h.sum_live
  refine ⟨B.length + w.heap.kernel.maps.length, _,
    (B.map Block.size).sum + w.heap.mmapedBytesNum, _, ?_, hcore.numFreeBlocks, ?_,
    hcore.numFreeBytes, by omega, by omega, fun h0 => ?_, fun h0 => ?_⟩
  · have hwalk : walkAllList w.heap (fun _ => 1) walkFuel w.heap.allListHead 0 =
        .ok (B.map fun _ => 1).sum :=
      hcore.walk (fun _ _ => rfl) fun b _ => Nat.le_add_right_of_le (by decide)
    rw [numAllocatedBlocks, hwalk, ok_bind, h.mapped.blocksNum, List.map_const', List.sum_replicate,
      smul_eq_mul, Nat.mul_one, sizeT_of_lt (by omega)]
    rfl
  · rw [numAllocatedBytes, hcore.walk hcore.size fun b _ => Nat.le_add_left _ _, ok_bind,
      sizeT_of_lt (by omega)]
    rfl
  · rw [numMetaDataBytes, (h.count h0).1, sizeT_of_lt (by omega)]
    rfl
  · rw [numMetaDataBytes, (h.count h0).1, sizeT_of_lt (by omega), (h.count h0).2]
    omega

end Accounts

/-- **The statistics account for everything**, after any run in which no mapping
is split: the allocated blocks are the client's and the free ones, the
allocated bytes are the recorded sizes of both, and as long as `sbrk` was never
refused these bytes and those of the headers are all that the kernel gave. -/
theorem statistics_account (v : Version) (os : Os) (mem : Mem) (es : List Event)
    (h : Throughout v os mem (Ordinary v) es) :
    Outcome (fun w => ∃ blocks freeBlocks bytes freeBytes,
      Accounts os w blocks freeBlocks bytes freeBytes) (fun f => f = .addIndex) (run v os mem es) :=
  (run_ordinary h).imp (fun _ ⟨_, hB⟩ => hB.accounts) fun _ hf => hf

set_option maxRecDepth 100000 in
/-- Two blocks in use, a free one and a mapping. -/
theorem statistics_account_mapped : ∃ w,
    run .malloc4 .generous (fun _ => 0) [.smalloc 1000, .smalloc 200000, .smalloc 50, .sfree 4144,
      .scalloc 3 8] = .ok w ∧
    ∃ blocks freeBlocks bytes freeBytes,
      Accounts .generous w blocks freeBlocks bytes freeBytes := by
  have haccounts := statistics_account .malloc4 .generous (fun _ => 0) [.smalloc 1000,
    .smalloc 200000, .smalloc 50, .sfree 4144, .scalloc 3 8] (by decide +kernel)
  obtain ⟨w, hw, -⟩ := (show Outcome (fun _ => True) (fun _ => False) (run .malloc4 .generous
    (fun _ => 0) [.smalloc 1000, .smalloc 200000, .smalloc 50, .sfree 4144, .scalloc 3 8]) by
      decide +kernel).exists_ok
  rw [hw] at haccounts
  exact ⟨w, hw, haccounts⟩

end OsAllHw.Malloc
