import OsAllHw.Malloc.Tiling

/-!
# The histogram holds exactly the free blocks

For `malloc_4.cpp` this is so after every run of small requests. In
`malloc_3.cpp` branch `d` of `srealloc` merges three blocks, puts the
result on the histogram and hands it to the client without taking it off
again; every other call keeps the histogram exact. Both files index past
the histogram as soon as a merge makes a block of `MMAP_SIZE` bytes.
-/

namespace OsAllHw.Malloc

open Lib

/-- **The histogram is exact** (`malloc_4.cpp`): each bucket is a consistent
chain without repetition, sorted by size, of the free blocks of its class. -/
theorem histogram_exact (os : Os) (mem : Mem) (es : List Event)
    (h : Throughout .malloc4 os mem (fun w e => Legal w e ∧ Small .malloc4 e) es) :
    Outcome (fun w => ∃ B, Core os w.heap B ∧ ∀ i, ∃ l, Bucket w.heap (freeHeads B) i l)
      (fun f => f = .addIndex) (run .malloc4 os mem es) := by
  refine (run_small (h.imp fun w e hw => ⟨hw.1, hw.2, .inl rfl⟩)).imp ?_ fun _ hf => hf
  rintro w ⟨B, hinv, -⟩
  exact ⟨B, hinv.rep.core, hinv.rep.binned⟩

set_option maxRecDepth 100000 in
theorem histogram_exact_mixed : ∃ w, run .malloc4 .generous (fun _ => 0) mixedEvents = .ok w ∧
    ∃ B, Core .generous w.heap B ∧ ∀ i, ∃ l, Bucket w.heap (freeHeads B) i l := by
  have hok : Outcome (fun _ => True) (fun _ => False)
      (run .malloc4 .generous (fun _ => 0) mixedEvents) := by decide +kernel
  obtain ⟨w, hw, -⟩ := hok.exists_ok
  have hexact := histogram_exact .generous (fun _ => 0) mixedEvents (by decide +kernel)
  rw [hw] at hexact
  exact ⟨w, hw, hexact⟩

/-! ## Branch `d` of `malloc_3.cpp` -/

/-- Bucket `i` chains `l`: the blocks of `S` of its class, each once. -/
structure Chained (s : Heap) (S : Set Nat) (i : Fin 128) (l : List Nat) : Prop where
  head : s.freeHistogram i = l.headD 0
  linked : Seg (s.get .histoNext) (s.get .histoPrev) 0 l 0
  nodup : l.Nodup
  mem : ∀ a, a ∈ l ↔ a ∈ S ∧ s.get .size a / 1024 = i

/-- The histogram of the heap list in memory: only free blocks are on it,
and each of them once. -/
def OnlyFree (os : Os) (s : Heap) : Prop :=
  ∃ B, Core os s B ∧ ∀ i, ∃ l, Chained s (freeHeads B) i l

/-- **`malloc_3.cpp`** keeps the histogram exact in every run of small
requests in which no `srealloc` takes branch `d`. -/
theorem malloc3_only_free (os : Os) (mem : Mem) (es : List Event)
    (h : Throughout .malloc3 os mem (fun w e => Legal w e ∧ Small .malloc3 e ∧
      NoBranchD .malloc3 w e) es) :
    Outcome (fun w => OnlyFree os w.heap) (fun f => f = .addIndex) (run .malloc3 os mem es) := by
  refine (run_small (h.imp fun w e hw => ⟨hw.1, hw.2.1, .inr hw.2.2⟩)).imp ?_ fun _ hf => hf
  rintro w ⟨B, hinv, -⟩
  refine ⟨B, hinv.rep.core, fun i => ?_⟩
  obtain ⟨l, hl⟩ := hinv.rep.binned i
  exact ⟨l, hl.head, hl.linked, hl.nodup, hl.mem⟩

set_option maxRecDepth 100000 in
theorem malloc3_only_free_mixed : ∃ w, run .malloc3 .generous (fun _ => 0) mixedEvents = .ok w ∧
    OnlyFree .generous w.heap := by
  have hok : Outcome (fun _ => True) (fun _ => False)
      (run .malloc3 .generous (fun _ => 0) mixedEvents) := by decide +kernel
  obtain ⟨w, hw, -⟩ := hok.exists_ok
  have honly := malloc3_only_free .generous (fun _ => 0) mixedEvents (by decide +kernel)
  rw [hw] at honly
  exact ⟨w, hw, honly⟩

/-- The first node of a bucket is free. -/
theorem OnlyFree.head_free {os : Os} {s : Heap} (h : OnlyFree os s) {i : Fin 128}
    (h0 : s.freeHistogram i ≠ 0) : s.isFree (s.freeHistogram i) = true := by
  obtain ⟨B, hcore, hbuckets⟩ := h
  obtain ⟨l, hl⟩ := hbuckets i
  rw [hl.head] at h0 ⊢
  have hmem : l.headD 0 ∈ l := (headD_mem_or l 0).resolve_left fun hz => h0 hz.1
  obtain ⟨b, hb, hbf, he⟩ := ((hl.mem _).mp hmem).1
  rw [← he, hcore.flag b hb, hbf]

set_option maxRecDepth 100000 in
/-- Three blocks of 100 bytes, the outer two released, the middle one grown
to 380: the block the client gets is still on the histogram. -/
theorem malloc3_branch_d_leaves_used :
    Throughout .malloc3 .generous (fun _ => 0) (fun w e => Legal w e ∧ Small .malloc3 e)
      [.smalloc 100, .smalloc 100, .smalloc 100, .sfree 4144, .sfree 4440, .srealloc 4292 380] ∧
    ∃ w, run .malloc3 .generous (fun _ => 0)
        [.smalloc 100, .smalloc 100, .smalloc 100, .sfree 4144, .sfree 4440,
          .srealloc 4292 380] = .ok w ∧
      w.heap.kernel.sbrkFailures = 0 ∧ ¬OnlyFree .generous w.heap := by
  refine ⟨by decide +kernel, ?_⟩
  have hok : Outcome (fun w => w.heap.kernel.sbrkFailures = 0 ∧ w.heap.freeHistogram 0 ≠ 0 ∧
      w.heap.isFree (w.heap.freeHistogram 0) = false) (fun _ => False)
      (run .malloc3 .generous (fun _ => 0)
        [.smalloc 100, .smalloc 100, .smalloc 100, .sfree 4144, .sfree 4440,
          .srealloc 4292 380]) := by
    decide +kernel
  obtain ⟨w, hw, h0, h1, h2⟩ := hok.exists_ok
  refine ⟨w, hw, h0, fun honly => ?_⟩
  rw [honly.head_free h1] at h2
  cases h2

/-! ## The index -/

/-- **Index safety.** In a run that never splits a mapped block (and in
`malloc_3.cpp` never takes branch `d`), all accesses to the histogram are in
range exactly when no merge makes a block of `MMAP_SIZE` bytes; the run then
ends in a state, all of whose listed blocks are below that size. -/
theorem histogram_index_safe (v : Version) (os : Os) (mem : Mem) (es : List Event)
    (h : Throughout v os mem (Ordinary v) es) :
    ((run v os mem es ≠ .error .addIndex ∧ run v os mem es ≠ .error .removeIndex) ↔
      Throughout v os mem (MergeFits v os) es) ∧
    (Throughout v os mem (MergeFits v os) es → ∃ w, run v os mem es = .ok w ∧
      ∃ B, Core os w.heap B ∧ ∀ b ∈ B, b.size < mmapSize) := by
  obtain ⟨hiff, hfault⟩ := runFrom_ok_iff (Inv.init os mem) h
  have hok : Throughout v os mem (MergeFits v os) es → ∃ w, run v os mem es = .ok w ∧
      ∃ B, Core os w.heap B ∧ ∀ b ∈ B, b.size < mmapSize := by
    intro hfits
    obtain ⟨w, hw, B, hinv⟩ := run_fits (h.and hfits)
    exact ⟨w, hw, B, hinv.rep.core, hinv.rep.small⟩
  refine ⟨⟨fun hne => ?_, fun hfits => ?_⟩, hok⟩
  · refine hiff.mp ?_
    cases hrun : run v os mem es with
    | ok w => exact ⟨w, hrun⟩
    | error f =>
        rw [hfault f hrun] at hrun
        exact absurd hrun hne.1
  · obtain ⟨w, hw, -⟩ := hok hfits
    rw [hw]
    exact ⟨by simp, by simp⟩

set_option maxRecDepth 100000 in
theorem histogram_index_safe_mixed :
    run .malloc4 .generous (fun _ => 0) mixedEvents ≠ .error .addIndex ∧
      run .malloc3 .generous (fun _ => 0) mixedEvents ≠ .error .addIndex :=
  ⟨((histogram_index_safe .malloc4 .generous (fun _ => 0) mixedEvents (by decide +kernel)).1.mpr
      (by decide +kernel)).1,
    ((histogram_index_safe .malloc3 .generous (fun _ => 0) mixedEvents (by decide +kernel)).1.mpr
      (by decide +kernel)).1⟩

/-- Two neighbours of 100000 bytes, both released. -/
def releaseNeighbours : List Event :=
  [.smalloc 100000, .smalloc 100000, .sfree 4144, .sfree 104192]

set_option maxRecDepth 100000 in
/-- The merged block has 200048 bytes and index 195, in both files. -/
theorem merge_overruns_histogram :
    (Throughout .malloc3 .generous (fun _ => 0) Legal releaseNeighbours ∧
      run .malloc3 .generous (fun _ => 0) releaseNeighbours = .error .addIndex) ∧
    Throughout .malloc4 .generous (fun _ => 0) Legal releaseNeighbours ∧
      run .malloc4 .generous (fun _ => 0) releaseNeighbours = .error .addIndex :=
  ⟨⟨by decide +kernel, Outcome.eq_error (by decide +kernel)⟩,
    ⟨by decide +kernel, Outcome.eq_error (by decide +kernel)⟩⟩

end OsAllHw.Malloc
