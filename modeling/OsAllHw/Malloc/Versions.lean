import OsAllHw.Lib.Simulate
import OsAllHw.Malloc.Tiling

/-!
# `malloc_3.cpp` and `malloc_4.cpp`

The two files differ in that `malloc_4.cpp` rounds requests up, and in branch
`d` of `srealloc`. On requests that are rounded already, and where that branch
is not taken, they do the same.
-/

namespace OsAllHw.Malloc

open Lib

/-- What to ask `malloc_3.cpp` for. -/
def Event.rounded : Event → Event
  | .smalloc size => .smalloc (roundUp size)
  | .srealloc oldp size => .srealloc oldp (roundUp size)
  | .scalloc num size => .scalloc num size
  | .sfree p => .sfree p
  | .write p off byte => .write p off byte

/-- `scalloc` clears just what was asked for, so its requests cannot be rounded
beforehand. -/
def Eights : Event → Prop
  | .scalloc num size => 8 ∣ sizeT (num * size)
  | _ => True

instance : (e : Event) → Decidable (Eights e)
  | .smalloc _ => .isTrue trivial
  | .scalloc _ _ => inferInstanceAs (Decidable (_ ∣ _))
  | .srealloc _ _ => .isTrue trivial
  | .sfree _ => .isTrue trivial
  | .write _ _ _ => .isTrue trivial

section Versions

variable {os : Os} {w : World} {B : List Block} {s : Heap} {p r size : Nat} {e : Event}

theorem roundUp_of_dvd (h : 8 ∣ r) : roundUp r = r := by
  unfold roundUp
  split_ifs <;> omega

/-- `smalloc` knows the version by the rounding only. -/
theorem smalloc_versions (os : Os) (s : Heap) (hr : roundUp size = r) :
    smalloc .malloc3 os s r = smalloc .malloc4 os s size := by
  subst hr
  rfl

/-- **`srealloc`** of both versions, clear of branch `d`. -/
theorem Inv.srealloc_versions (h : Inv os w B) (hp : p = 0 ∨ p ∈ w.live)
    (hd : NoBranchD .malloc4 w (.srealloc p size)) :
    srealloc .malloc3 os w.heap p (roundUp size) = srealloc .malloc4 os w.heap p size := by
  obtain ⟨r, hr⟩ : ∃ r, roundUp size = r := ⟨_, rfl⟩
  have hround3 : Version.malloc3.round r = r := rfl
  have hround4 : Version.malloc4.round size = r := hr
  have hsm : ∀ s, smalloc .malloc3 os s r = smalloc .malloc4 os s r := fun s =>
    smalloc_versions os s (by rw [← hr]; exact round_round .malloc4 size)
  rw [hr, srealloc, srealloc]
  simp only [hround3, hround4, hsm]
  by_cases hmax : r = 0 ∨ maxRequest < r
  · simp only [if_pos hmax]
  by_cases hp0 : p = 0
  · simp only [if_neg hmax, if_pos hp0]
  by_cases hbig : mmapSize ≤ r
  · simp only [if_neg hmax, if_neg hp0, if_pos hbig]
  simp only [if_neg hmax, if_neg hp0, if_neg hbig]
  obtain ⟨L, m, R, rfl, hm, rfl⟩ | ⟨t, ht, rfl⟩ := h.cases (hp.resolve_left hp0)
  · have hno := hd hp0 (by rw [hround4]; omega) (by rw [hround4]; omega)
    rw [h.sizeOf_block (by simp), hround4, payload_sub, h.rep.freeLeft_eq,
      h.rep.freeRight_eq] at hno
    have hno' := hno (h.rep.small m (by simp))
    have hsize := h.rep.core.size m (by simp)
    rw [payload_sub]
    by_cases ha : w.heap.get .size m.addr ≥ r
    · simp only [if_pos ha]
    simp only [if_neg ha]
    have hlt : m.size < r := by omega
    by_cases hb : r ≤ freeLastBytes L + m.size
    · simp only [if_pos ((h.rep.guard_left hlt).mpr hb)]
    simp only [if_neg ((h.rep.guard_left hlt).not.mpr hb)]
    by_cases hc : r ≤ m.size + freeHeadBytes R
    · simp only [if_pos ((h.rep.guard_right hlt).mpr hc)]
    simp only [if_neg ((h.rep.guard_right hlt).not.mpr hc)]
    have hboth : ¬r ≤ freeLastBytes L + m.size + freeHeadBytes R := fun hle =>
      hno' ⟨Nat.not_le.mp hb, Nat.not_le.mp hc, hle⟩
    simp only [if_neg ((h.rep.guard_both (Nat.not_le.mp hb) (Nat.not_le.mp hc)).not.mpr hboth)]
  · -- a mapping is large enough
    have hlarge := (h.mapped.size t ht).2
    rw [Nat.add_sub_cancel]
    simp only [if_pos (show w.heap.get .size t.1 ≥ r by omega)]

/-- **One event** of both versions. -/
theorem Inv.exec_versions (h : Inv os w B) (hlegal : Legal w e) (hd : NoBranchD .malloc4 w e)
    (he : Eights e) : exec .malloc3 os w e.rounded = exec .malloc4 os w e := by
  cases e with
  | smalloc size => rfl
  | scalloc num size =>
      have hsm : smalloc .malloc3 os w.heap (sizeT (num * size)) =
          smalloc .malloc4 os w.heap (sizeT (num * size)) :=
        smalloc_versions os w.heap (roundUp_of_dvd he)
      simp only [Event.rounded, exec, scalloc, hsm]
  | srealloc oldp size =>
      simp only [Event.rounded, exec, h.srealloc_versions hlegal.1 hd]
  | sfree p => rfl
  | write p off byte => rfl

end Versions

/-- **The two versions agree** on every run without branch `d` and without
splits of mappings: with its requests rounded up, `malloc_3.cpp` ends in the
very state that `malloc_4.cpp` ends in, or with the same fault. -/
theorem versions_agree (os : Os) (mem : Mem) (es : List Event)
    (h : Throughout .malloc4 os mem
      (fun w e => Ordinary .malloc4 w e ∧ NoBranchD .malloc4 w e ∧ Eights e) es) :
    run .malloc3 os mem (es.map Event.rounded) = run .malloc4 os mem es := by
  refine runFrom_map (I := fun w => ∃ B, Inv os w B) ?_ ⟨[], .init os mem⟩ h
  rintro w e ⟨B, hB⟩ ⟨hordinary, hd, he⟩
  exact ⟨hB.exec_versions hordinary.1 hd he,
    (hB.exec_ordinary hordinary).imp (fun _ h => h) fun _ _ => trivial⟩

set_option maxRecDepth 100000 in
/-- A split, a merge to the left and a cleared block. -/
theorem versions_agree_merging :
    run .malloc3 .generous (fun _ => 0) ([.smalloc 1001, .smalloc 50, .sfree 4144,
      .srealloc 5200 400, .scalloc 4 6].map Event.rounded) =
    run .malloc4 .generous (fun _ => 0) [.smalloc 1001, .smalloc 50, .sfree 4144,
      .srealloc 5200 400, .scalloc 4 6] :=
  versions_agree .generous (fun _ => 0) _ (by decide +kernel)

end OsAllHw.Malloc
