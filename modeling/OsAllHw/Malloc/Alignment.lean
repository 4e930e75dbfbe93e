import OsAllHw.Malloc.BestFit

/-!
# Alignment

`malloc_4.cpp` rounds each request up to a multiple of eight where it comes
in, in `smalloc` and `srealloc`. Everything made from requests inherits it:
splits, merges, a grown wilderness, headers left behind by a refused `sbrk`,
mappings. Near `2 ^ 64` the rounding wraps to zero, which the size check
refuses like every other request that is too large.
-/

namespace OsAllHw.Malloc

open Lib

/-- The size check accepts a rounded request exactly when it accepts the
request. -/
theorem round_accepted {size : Nat} (hsize : IsWord size) :
    (Version.malloc4.round size = 0 ∨ maxRequest < Version.malloc4.round size) ↔
      ¬(0 < size ∧ size ≤ maxRequest) := by
  have hmr : maxRequest = 100000000 := rfl
  unfold IsWord at hsize
  unfold Version.round roundUp sizeT
  dsimp only
  split_ifs <;> omega

/-! ## The size check -/

section Check

variable {v : Version} {os : Os} {s s' : Heap} {q r : Nat}

theorem sbrk_calls (os : Os) (k : Kernel) (incr : Int) :
    (sbrk os k incr).2.sbrkCalls = k.sbrkCalls + 1 := by
  unfold sbrk
  split <;> rfl

theorem mmap_calls (os : Os) (k : Kernel) (len : Nat) :
    (mmap os k len).2.mmapCalls = k.mmapCalls + 1 := by
  unfold mmap
  split
  · split <;> rfl
  · rfl

theorem createMetadataSbrk_calls (os : Os) (s : Heap) (r : Nat) :
    (createMetadataSbrk os s r false).2.kernel.sbrkCalls = s.kernel.sbrkCalls + 1 := by
  have hrange : ¬(metaSize = 0 ∨ maxRequest < metaSize) := by decide
  have hcalls := sbrk_calls os s.kernel (toIntptr metaSize)
  rw [createMetadataSbrk, smallocNaive, if_neg hrange]
  cases hsb : sbrk os s.kernel (toIntptr metaSize) with
  | mk a k =>
      rw [hsb] at hcalls
      cases a with
      | none => exact hcalls
      | some a =>
          by_cases ha : a = 0
          · simpa [ha] using hcalls
          · simpa [ha] using hcalls

/-- **`sbrk_wrapper`** hands out a block or has asked the kernel. -/
theorem sbrkWrapper_calls (hrun : sbrkWrapper os s r = .ok (q, s')) :
    q ≠ 0 ∨ s.kernel.sbrkCalls < s'.kernel.sbrkCalls := by
  rw [sbrkWrapper] at hrun
  by_cases hend : s.allListEnd ≠ 0 ∧ s.isFree s.allListEnd = true
  · rw [if_pos hend] at hrun
    have hcalls := sbrk_calls os s.kernel (toIntptr (subT r (s.get .size s.allListEnd)))
    cases hsb : sbrk os s.kernel (toIntptr (subT r (s.get .size s.allListEnd))) with
    | mk a k =>
        rw [hsb] at hrun hcalls
        cases a with
        | none =>
            cases hrun
            exact .inr (by rw [hcalls]; exact Nat.lt_succ_self _)
        | some a =>
            obtain ⟨t, -, hrun⟩ := bind_eq_ok.mp hrun
            cases hrun
            exact .inl (Nat.succ_ne_zero _)
  · rw [if_neg hend] at hrun
    have hcalls := createMetadataSbrk_calls os s r
    cases hmk : createMetadataSbrk os s r false with
    | mk m t =>
        rw [hmk] at hrun hcalls
        by_cases hm : m = 0
        · simp only [hm, if_true] at hrun
          cases hrun
          exact .inr (by rw [hcalls]; exact Nat.lt_succ_self _)
        · simp only [hm, if_false] at hrun
          have hcalls' := sbrk_calls os t.kernel (toIntptr r)
          cases hsb : sbrk os t.kernel (toIntptr r) with
          | mk a k =>
              rw [hsb] at hrun hcalls'
              cases a with
              | none =>
                  cases hrun
                  exact .inr (by change _ < k.sbrkCalls; rw [hcalls', hcalls]; omega)
              | some a =>
                  cases hrun
                  exact .inr (by
                    rw [addNodeList_kernel]
                    change _ < k.sbrkCalls
                    rw [hcalls', hcalls]
                    omega)

/-- **`smalloc` turns a request away**, with `NULL` and nothing done, exactly
where its size is out of range: a request that passes the check gets a block
or has asked the kernel for one. -/
theorem smalloc_ignores_iff : smalloc v os s r = .ok (0, s) ↔
    v.round r = 0 ∨ maxRequest < v.round r := by
  constructor
  · intro hrun
    by_contra hrange
    rw [smalloc] at hrun
    simp only [if_neg hrange] at hrun
    by_cases hbig : mmapSize ≤ v.round r
    · rw [if_pos hbig, mmapWrapper] at hrun
      have hcalls := mmap_calls os s.kernel (sizeT (v.round r + metaSize))
      cases hmap : mmap os s.kernel (sizeT (v.round r + metaSize)) with
      | mk a k =>
          rw [hmap] at hrun hcalls
          cases a with
          | none =>
              have hsame : k = s.kernel :=
                congrArg (fun x => x.2.kernel) (Except.ok.inj hrun)
              rw [hsame] at hcalls
              exact Nat.succ_ne_self _ hcalls.symm
          | some a => exact Nat.succ_ne_zero _ (congrArg Prod.fst (Except.ok.inj hrun))
    · rw [if_neg hbig] at hrun
      obtain ⟨c, -, hrun⟩ := bind_eq_ok.mp hrun
      by_cases hc : c = 0
      · rw [if_pos hc] at hrun
        obtain hq | hcalls := sbrkWrapper_calls hrun
        · exact hq rfl
        · exact Nat.lt_irrefl _ hcalls
      · rw [if_neg hc] at hrun
        split_ifs at hrun
        all_goals
          obtain ⟨t, -, hrun⟩ := bind_eq_ok.mp hrun
          exact Nat.succ_ne_zero _ (congrArg Prod.fst (Except.ok.inj hrun))
  · intro hrange
    rw [smalloc]
    simp only [if_pos hrange]
    rfl

end Check

/-! ## What is aligned -/

/-- What `malloc_4.cpp` hands out and what it records. -/
structure AlignedHeap (os : Os) (w : World) (B : List Block) : Prop where
  list : Core os w.heap B
  /-- The pointers the client was given. -/
  pointers : ∀ p ∈ w.live, 8 ∣ p
  blocks : ∀ b ∈ B, 8 ∣ b.addr ∧ 8 ∣ b.size ∧ 0 < b.size
  maps : ∀ r ∈ w.heap.kernel.maps,
    8 ∣ r.1 ∧ 8 ∣ w.sizeOf (r.1 + metaSize) ∧ 0 < w.sizeOf (r.1 + metaSize)

theorem Inv.alignedHeap {os : Os} {w : World} {B : List Block} (h : Inv os w B)
    (ha : w.Aligned B) : AlignedHeap os w B := by
  have hms : metaSize = 48 := rfl
  have hmm : mmapSize = 131072 := rfl
  have hmaps : ∀ r ∈ w.heap.kernel.maps,
      8 ∣ r.1 ∧ 8 ∣ w.sizeOf (r.1 + metaSize) ∧ 0 < w.sizeOf (r.1 + metaSize) := by
    intro r hr
    have hpage := h.mapped.page r hr
    have hlen := h.sizeOf_map hr
    have hbig := (h.mapped.size r hr).2
    have h8 := ha.maps r hr
    rw [(h.mapped.size r hr).1] at hlen
    rw [(h.mapped.size r hr).1] at h8
    refine ⟨by omega, ?_, ?_⟩ <;> omega
  refine ⟨h.rep.core, fun p hp => ?_, ha.blocks, hmaps⟩
  rcases h.cases hp with ⟨L, m, R, rfl, -, rfl⟩ | ⟨r, hr, rfl⟩
  · have haddr := (ha.blocks m (by simp)).1
    unfold Block.payload
    omega
  · have := (hmaps r hr).1
    omega

/-- **Alignment.** If the data segment starts at a multiple of eight, then in
every run that splits no mapped block, whatever is requested and whatever is
refused: all pointers handed out, all headers and all recorded sizes are
multiples of eight. The run can only end early in `add_node_histo`, with a
block too large for the histogram. And `smalloc` turns a request away at once,
with `NULL`, the heap as it was and no call of the kernel, exactly when it is
not positive or above the limit. -/
theorem pointers_aligned (os : Os) (mem : Mem) (es : List Event) (hbrk : 8 ∣ os.brk0)
    (h : Throughout .malloc4 os mem (fun w e => Legal w e ∧ NoMappedSplit .malloc4 w e) es) :
    Outcome (fun w => ∃ B, AlignedHeap os w B) (fun f => f = .addIndex)
      (run .malloc4 os mem es) ∧
    ∀ s size, IsWord size →
      (smalloc .malloc4 os s size = .ok (0, s) ↔ ¬(0 < size ∧ size ≤ 100000000)) := by
  refine ⟨?_, fun s size hsize => smalloc_ignores_iff.trans (round_accepted hsize)⟩
  have hrun : Outcome (fun w => ∃ B, Inv os w B ∧ w.Aligned B) (fun f => f = .addIndex)
      (run .malloc4 os mem es) := by
    refine runFrom_outcome ?_ ⟨[], Inv.init os mem, hbrk, by simp, ?_⟩ h
    · rintro w e ⟨B, hinv, ha⟩ ⟨hlegal, hsplit⟩
      obtain ⟨hok, herr⟩ := exec_step hinv hlegal hsplit (.inl rfl)
      by_cases hfits : MergeFits .malloc4 os w e
      · obtain ⟨w', B', hexec, hstep⟩ := hok hfits
        rw [hexec]
        exact ⟨B', hstep.inv, hstep.aligned rfl ha⟩
      · rw [herr hfits]
        rfl
    · intro r hr
      cases hr
  exact hrun.imp (fun w ⟨B, hinv, ha⟩ => ⟨B, hinv.alignedHeap ha⟩) fun _ hf => hf

/-- Odd sizes on both sides of `MMAP_SIZE`, one that wraps to zero, one that
is refused. -/
def oddEvents : List Event :=
  [.smalloc 1001, .smalloc 3, .scalloc 3 131073, .sfree 4144, .srealloc 5200 1001,
    .smalloc 18446744073709551615, .srealloc 4144 99999999, .smalloc 100000001]

set_option maxRecDepth 100000 in
theorem pointers_aligned_odd : ∃ w, run .malloc4 .generous (fun _ => 0) oddEvents = .ok w ∧
    ∃ B, AlignedHeap .generous w B := by
  have hok : Outcome (fun _ => True) (fun _ => False)
      (run .malloc4 .generous (fun _ => 0) oddEvents) := by decide +kernel
  obtain ⟨w, hw, -⟩ := hok.exists_ok
  have haligned := (pointers_aligned .generous (fun _ => 0) oddEvents (by decide)
    (by decide +kernel)).1
  rw [hw] at haligned
  exact ⟨w, hw, haligned⟩

end OsAllHw.Malloc
