import OsAllHw.Malloc.Failures
import OsAllHw.Malloc.Runs
import OsAllHw.Malloc2.Failures
import OsAllHw.Malloc2.Runs

/-!
# All three allocators

What holds of `malloc_2.cpp`, `malloc_3.cpp` and `malloc_4.cpp` alike: what
a `NULL` leaves behind, and what `scalloc` promises when the product of its
arguments does not fit `size_t`.
-/

namespace OsAllHw

open Lib
open Malloc (Os)

/-! ## Failed requests -/

/-- **A `NULL` changes something exactly when the request was half done**: it
got a header from `sbrk`, counted it, and was then refused the payload. -/
theorem null_unchanged (os : Os) :
    (∀ s q s', Malloc2.serve os s q = .ok (0, s') →
      (Malloc2.Unchanged s s' ↔ ¬Malloc2.HalfDone os s q)) ∧
    ∀ v s q s', Malloc.serve v os s q = .ok (0, s') →
      (Malloc.Unchanged s s' ↔ ¬Malloc.HalfDone v os s q) :=
  ⟨fun _ _ _ h => Malloc2.null_unchanged_iff h, fun _ _ _ _ h => Malloc.null_unchanged_iff h⟩

/-- A kernel that refuses the second `sbrk`. -/
def refusesSecond : Os := .refusing fun n => n == 1

/-- The first request of a process, with the header left behind. -/
theorem Malloc2.strands_first : ∃ s',
    serve refusesSecond (World.init refusesSecond fun _ => 0).heap (.smalloc 100) = .ok (0, s') ∧
      numMetaDataBytes s' = 32 := by
  have hout : Outcome (fun x : Nat × Heap => x.1 = 0 ∧ numMetaDataBytes x.2 = 32) (fun _ => False)
      (serve refusesSecond (World.init refusesSecond fun _ => 0).heap (.smalloc 100)) := by
    decide +kernel
  obtain ⟨⟨p, s'⟩, hrun, rfl, hnum⟩ := hout.exists_ok
  exact ⟨s', hrun, hnum⟩

theorem Malloc.strands_first (v : Version) : ∃ s',
    serve v refusesSecond (World.init refusesSecond fun _ => 0).heap (.smalloc 100) = .ok (0, s') ∧
      numMetaDataBytes s' = 48 := by
  have hout : Outcome (fun x : Nat × Heap => x.1 = 0 ∧ numMetaDataBytes x.2 = 48) (fun _ => False)
      (serve v refusesSecond (World.init refusesSecond fun _ => 0).heap (.smalloc 100)) := by
    cases v <;> decide +kernel
  obtain ⟨⟨p, s'⟩, hrun, rfl, hnum⟩ := hout.exists_ok
  exact ⟨s', hrun, hnum⟩

theorem null_unchanged_first :
    (∃ s', Malloc2.serve refusesSecond (Malloc2.World.init refusesSecond fun _ => 0).heap
        (.smalloc 100) = .ok (0, s') ∧
      (Malloc2.Unchanged (Malloc2.World.init refusesSecond fun _ => 0).heap s' ↔
        ¬Malloc2.HalfDone refusesSecond (Malloc2.World.init refusesSecond fun _ => 0).heap
          (.smalloc 100))) ∧
    ∃ s', Malloc.serve .malloc4 refusesSecond (Malloc.World.init refusesSecond fun _ => 0).heap
        (.smalloc 100) = .ok (0, s') ∧
      (Malloc.Unchanged (Malloc.World.init refusesSecond fun _ => 0).heap s' ↔
        ¬Malloc.HalfDone .malloc4 refusesSecond (Malloc.World.init refusesSecond fun _ => 0).heap
          (.smalloc 100)) := by
  obtain ⟨s₂, h₂, -⟩ := Malloc2.strands_first
  obtain ⟨s₄, h₄, -⟩ := Malloc.strands_first .malloc4
  exact ⟨⟨s₂, h₂, (null_unchanged _).1 _ _ _ h₂⟩, s₄, h₄, (null_unchanged _).2 _ _ _ _ h₄⟩

/-- None of the three leaves the statistics as they were. -/
theorem null_changes_statistics :
    (¬∀ os mem es w, Malloc2.run os mem es = .ok w → ∀ q s',
      Malloc2.serve os w.heap q = .ok (0, s') → Malloc2.Unchanged w.heap s') ∧
    ∀ v, ¬∀ os mem es w, Malloc.run v os mem es = .ok w → ∀ q s',
      Malloc.serve v os w.heap q = .ok (0, s') → Malloc.Unchanged w.heap s' := by
  refine ⟨fun hall => ?_, fun v hall => ?_⟩
  · obtain ⟨s', hrun, hnum⟩ := Malloc2.strands_first
    have hsame := (hall refusesSecond (fun _ => 0) [] _ rfl _ _ hrun).numMetaDataBytes
    rw [hnum] at hsame
    exact absurd hsame (by decide +kernel)
  · obtain ⟨s', hrun, hnum⟩ := Malloc.strands_first v
    have hsame := (hall refusesSecond (fun _ => 0) [] _ rfl _ _ hrun).numMetaDataBytes
    rw [hnum] at hsame
    exact absurd hsame (by decide +kernel)

/-! ## `scalloc` -/

/-- What `scalloc(num, size)` promises of its result `p`: at least `num * size`
bytes, all zero, where `size` is the recorded size behind `p`; and `NULL` if
that is too much. -/
structure EnoughZeros (num size : Nat) (mem : Mem) (p recorded : Nat) : Prop where
  fits : p ≠ 0 → num * size ≤ recorded
  zero : p ≠ 0 → ∀ i < num * size, mem (p + i) = 0
  tooMuch : 100000000 < num * size → p = 0

theorem EnoughZeros.null {num size recorded : Nat} {mem : Mem} :
    EnoughZeros num size mem 0 recorded :=
  ⟨fun h0 => absurd rfl h0, fun h0 => absurd rfl h0, fun _ => rfl⟩

/-- A block of fewer than `2 ^ 64` bytes was cleared as far as the wrapped
product goes. -/
theorem enoughZeros_iff {num size p recorded : Nat} {mem : Mem} (hp : p ≠ 0)
    (hrec : recorded < 2 ^ 64) (hmax : Malloc.sizeT (num * size) ≤ 100000000)
    (hfits : Malloc.sizeT (num * size) ≤ recorded)
    (hzero : ∀ i < Malloc.sizeT (num * size), mem (p + i) = 0) :
    EnoughZeros num size mem p recorded ↔ num * size < 2 ^ 64 ∨ p = 0 := by
  constructor
  · exact fun h => .inl ((h.fits hp).trans_lt hrec)
  · rintro (hlt | h0)
    · rw [Malloc.sizeT_of_lt hlt] at hmax hfits hzero
      exact ⟨fun _ => hfits, fun _ => hzero, fun h => absurd hmax (Nat.not_le.mpr h)⟩
    · exact absurd h0 hp

namespace Malloc2

variable {os : Os} {s : Heap} {B : List Block}

theorem scalloc_enough_iff (h : Rep os s B) (num size : Nat) :
    ∃ x, scalloc os s num size = .ok x ∧
      (EnoughZeros num size x.2.mem x.1 (x.2.get .size (x.1 - metaSize)) ↔
        num * size < 2 ^ 64 ∨ Refuses os s (Malloc.sizeT (num * size))) := by
  have hbrk : s.kernel.brk ≠ 0 := Nat.ne_of_gt (os.brk0_pos.trans_le h.tiles.le)
  by_cases hr : Malloc.sizeT (num * size) = 0 ∨ maxRequest < Malloc.sizeT (num * size)
  · refine ⟨(0, s), ?_, iff_of_true .null (.inr (.inl hr))⟩
    rw [scalloc, smalloc_refuses os s hr]
    rfl
  obtain ⟨h0, hmax⟩ := not_or.mp hr
  obtain ⟨⟨p, s'⟩, hrun, hnull⟩ : ∃ x, smalloc os s (Malloc.sizeT (num * size)) = .ok x ∧
      (x.1 = 0 ↔ Refuses os s (Malloc.sizeT (num * size))) := by
    obtain ⟨x, -, hrun, -⟩ := smalloc_spec h h0 (Nat.not_lt.mp hmax)
    exact ⟨x, hrun, smalloc_eq_null_iff hrun hbrk⟩
  obtain ⟨x, B', hcall, halloc, hans, hzero⟩ := scalloc_spec _ _ h h0 (Nat.not_lt.mp hmax)
  have hx : x.1 = p := by
    rw [scalloc, hrun, ok_bind] at hcall
    dsimp only at hcall
    by_cases hp : p = 0
    · rw [if_pos hp] at hcall
      exact (congrArg Prod.fst (Except.ok.inj hcall)).symm.trans hp.symm
    · rw [if_neg hp] at hcall
      exact (congrArg Prod.fst (Except.ok.inj hcall)).symm
  refine ⟨x, hcall, ?_⟩
  rw [← hnull, ← hx]
  by_cases hp : x.1 = 0
  · rw [hp]
    exact iff_of_true .null (.inr rfl)
  · obtain ⟨n, hn, -, hnp, hnr⟩ := halloc.exists_block hp
    refine enoughZeros_iff hp (mallocMetadata.load_lt ..) (Nat.not_lt.mp hmax) ?_ (hzero hp)
    rw [← hnp, Block.payload, Nat.add_sub_cancel, hans.rep.size n hn]
    exact hnr

end Malloc2

namespace Malloc

variable {v : Version} {os : Os} {s : Heap} {B : List Block}

/-- `smalloc` returns on every well-formed heap, with a block that is large
enough. -/
theorem smalloc_returns (h : Rep os s B) (r : Nat) :
    ∃ x, smalloc v os s r = .ok x ∧
      (x.1 ≠ 0 → v.round r ≠ 0 ∧ v.round r ≤ maxRequest ∧
        ∃ a, x.1 = a + metaSize ∧ v.round r ≤ x.2.get .size a) := by
  by_cases hr : v.round r = 0 ∨ maxRequest < v.round r
  · refine ⟨(0, s), ?_, fun hx => absurd rfl hx⟩
    rw [smalloc]
    simp only [if_pos hr]
    rfl
  obtain ⟨h0, hmax⟩ := not_or.mp hr
  by_cases hbig : mmapSize ≤ v.round r
  · have hrun : smalloc v os s r = .ok (mmapWrapper os s (v.round r)) := by
      rw [smalloc]
      simp only [if_neg hr, if_pos hbig]
      rfl
    refine ⟨_, hrun, fun hx => ⟨h0, Nat.not_lt.mp hmax, ?_⟩⟩
    generalize mmapWrapper os s (v.round r) = x at hrun hx
    cases smalloc_path hrun with
    | refused => exact absurd rfl hx
    | stranded => exact absurd rfl hx
    | mapped a s' hno hsize => exact ⟨a, rfl, hsize.ge⟩
    | block a s' hno hsmall => exact absurd hsmall (Nat.not_lt.mpr hbig)
  · obtain ⟨x, hrun, hx⟩ := smalloc_small v r h h0 (Nat.not_le.mp hbig)
    refine ⟨x, hrun, fun hx0 => ⟨h0, Nat.not_lt.mp hmax, ?_⟩⟩
    cases hx with
    | null => exact absurd rfl hx0
    | block B' q s' hrel hrep hkeeps =>
        obtain ⟨L, n, R, rfl, rfl, -, hnr, -⟩ := hrel.exists_new h.core.layout
        exact ⟨n.addr, rfl, by rw [hrep.core.size n (by simp)]; exact hnr⟩

theorem scalloc_enough_iff (h : Rep os s B) (num size : Nat) :
    ∃ x, scalloc v os s num size = .ok x ∧
      (EnoughZeros num size x.2.mem x.1 (x.2.get .size (x.1 - metaSize)) ↔
        num * size < 2 ^ 64 ∨ Refuses v os s (sizeT (num * size))) := by
  obtain ⟨⟨p, s'⟩, hrun, hlarge⟩ := smalloc_returns (v := v) h (sizeT (num * size))
  have hbrk : s.kernel.brk ≠ 0 := Nat.ne_of_gt (os.brk0_pos.trans_le h.core.layout.le)
  have hnull := smalloc_eq_null_iff hrun hbrk
  have hword : IsWord (sizeT (num * size)) := by
    unfold IsWord sizeT
    omega
  rw [scalloc, hrun, ok_bind, ← hnull]
  dsimp only at hlarge ⊢
  by_cases hp : p = 0
  · rw [if_pos hp]
    exact ⟨(0, s'), rfl, iff_of_true .null (.inr hp)⟩
  · obtain ⟨h0, hmax, a, rfl, hfits⟩ := hlarge hp
    have hle := le_round hword h0
    rw [if_neg hp]
    refine ⟨_, rfl, enoughZeros_iff hp (get_lt _ _ _) (hle.trans hmax) (hle.trans ?_)
      fun i hi => ?_⟩
    · -- the header lies in front of the bytes cleared
      have hend := Field.size.end_le
      dsimp only
      rw [Nat.add_sub_cancel]
      refine hfits.trans (le_of_eq ?_)
      exact (Mem.loadLE_congr fun x h1 h2 => Mem.fillBytes_of_outside _ (.inl (by omega))).symm
    · exact if_pos (by dsimp only; omega)

end Malloc

end OsAllHw
