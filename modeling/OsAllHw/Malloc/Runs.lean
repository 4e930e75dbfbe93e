import OsAllHw.Malloc.Steps

/-!
# Whole runs

The invariant holds after every run of legal events, as long as `srealloc`
never splits a mapped block and (in `malloc_3.cpp`) never takes branch `d`.
Such a run ends in a state unless some merge makes a block of `MMAP_SIZE`
bytes, and then it ends with `add_node_histo` indexing past the histogram:
`run_ok_iff`.
-/

namespace OsAllHw.Malloc

open Lib

/-- A run from the start of the process. -/
def run (v : Version) (os : Os) (mem : Mem) (es : List Event) : Except Fault World :=
  runFrom (exec v os) (.init os mem) es

/-- Every event of a run meets `P` in the state it is made in. -/
def Throughout (v : Version) (os : Os) (mem : Mem) (P : World → Event → Prop)
    (es : List Event) : Prop :=
  Along (exec v os) P (.init os mem) es

instance (v : Version) (os : Os) (mem : Mem) (P : World → Event → Prop)
    [∀ w e, Decidable (P w e)] (es : List Event) : Decidable (Throughout v os mem P es) :=
  inferInstanceAs (Decidable (Along _ _ _ _))

/-- A legal event that keeps clear of the two defects of `srealloc`. -/
def Ordinary (v : Version) (w : World) (e : Event) : Prop :=
  Legal w e ∧ NoMappedSplit v w e ∧ (v = .malloc4 ∨ NoBranchD v w e)

instance (v : Version) (w : World) (e : Event) : Decidable (Ordinary v w e) :=
  inferInstanceAs (Decidable (_ ∧ _ ∧ _))

section Runs

variable {v : Version} {os : Os} {mem : Mem} {w : World} {B : List Block} {e : Event}
  {es : List Event}

/-- While nothing is mapped there is no mapped block to split. -/
theorem Inv.noMappedSplit (h : Inv os w B) (hmaps : w.heap.kernel.maps = []) (hlegal : Legal w e) :
    NoMappedSplit v w e := by
  cases e with
  | srealloc oldp size =>
      intro hp0 hbig
      rcases h.cases (hlegal.1.resolve_left hp0) with ⟨L, m, R, rfl, hm, rfl⟩ | ⟨r, hr, -⟩
      · rw [h.sizeOf_block (b := m) (by simp)] at hbig
        exact absurd (h.rep.small m (by simp)) (Nat.not_lt.mpr hbig)
      · rw [hmaps] at hr
        cases hr
  | smalloc size => trivial
  | scalloc num size => trivial
  | sfree p => trivial
  | write p off byte => trivial

/-- One event of a run whose requests are all small. -/
theorem Inv.exec_small (h : Inv os w B) (hmaps : w.heap.kernel.maps = []) (hlegal : Legal w e)
    (hsmall : Small v e) (hd : v = .malloc4 ∨ NoBranchD v w e) :
    Outcome (fun w' => ∃ B',
      Step os e.touches (SplitClear v w e) (Small v e) (v = .malloc4) w B w' B' ∧
        w'.heap.kernel.maps = []) (fun f => f = .addIndex) (exec v os w e) := by
  obtain ⟨hok, herr⟩ := exec_step h hlegal (h.noMappedSplit hmaps hlegal) hd
  by_cases hfits : MergeFits v os w e
  · obtain ⟨w', B', hrun, hstep⟩ := hok hfits
    rw [hrun]
    exact ⟨B', hstep, hstep.unmapped hsmall hmaps⟩
  · rw [herr hfits]
    rfl

/-- **Runs of small requests** keep the invariant and map nothing. -/
theorem run_small
    (h : Throughout v os mem (fun w e => Legal w e ∧ Small v e ∧
      (v = .malloc4 ∨ NoBranchD v w e)) es) :
    Outcome (fun w => ∃ B, Inv os w B ∧ w.heap.kernel.maps = []) (fun f => f = .addIndex)
      (run v os mem es) := by
  refine runFrom_outcome ?_ ⟨[], Inv.init os mem, rfl⟩ h
  rintro w e ⟨B, hinv, hmaps⟩ ⟨hlegal, hsmall, hd⟩
  exact (hinv.exec_small hmaps hlegal hsmall hd).imp
    (fun w' ⟨B', hstep, hm⟩ => ⟨B', hstep.inv, hm⟩) fun _ hf => hf

/-- **Runs that fit** end in a state. -/
theorem run_fits (h : Throughout v os mem (fun w e => Ordinary v w e ∧ MergeFits v os w e) es) :
    ∃ w, run v os mem es = .ok w ∧ ∃ B, Inv os w B := by
  refine Outcome.exists_ok (runFrom_outcome ?_ ⟨[], Inv.init os mem⟩ h)
  rintro w e ⟨B, hinv⟩ ⟨⟨hlegal, hsplit, hd⟩, hfits⟩
  obtain ⟨w', B', hrun, hstep⟩ := (exec_step hinv hlegal hsplit hd).1 hfits
  rw [hrun]
  exact ⟨B', hstep.inv⟩

/-- A run from a state with the invariant ends in a state exactly when all
its merges fit, and with `addIndex` otherwise. -/
theorem runFrom_ok_iff (h : Inv os w B) (hes : Along (exec v os) (Ordinary v) w es) :
    ((∃ w', runFrom (exec v os) w es = .ok w') ↔ Along (exec v os) (MergeFits v os) w es) ∧
      ∀ f, runFrom (exec v os) w es = .error f → f = .addIndex := by
  induction es generalizing w B with
  | nil => exact ⟨⟨fun _ => trivial, fun _ => ⟨w, rfl⟩⟩, fun f hf => by cases hf⟩
  | cons e es ih =>
      obtain ⟨⟨hlegal, hsplit, hd⟩, hrest⟩ := hes
      obtain ⟨hok, herr⟩ := exec_step h hlegal hsplit hd
      simp only [runFrom, Along]
      by_cases hfits : MergeFits v os w e
      · obtain ⟨w', B', hrun, hstep⟩ := hok hfits
        rw [hrun] at hrest ⊢
        simpa [hfits] using ih hstep.inv hrest
      · rw [herr hfits]
        simp [hfits]

/-- One event of an ordinary run. -/
theorem Inv.exec_ordinary (h : Inv os w B) (he : Ordinary v w e) :
    Outcome (fun w' => ∃ B', Inv os w' B') (fun f => f = .addIndex) (exec v os w e) := by
  obtain ⟨hlegal, hsplit, hd⟩ := he
  obtain ⟨hok, herr⟩ := exec_step h hlegal hsplit hd
  by_cases hfits : MergeFits v os w e
  · obtain ⟨w', B', hrun, hstep⟩ := hok hfits
    rw [hrun]
    exact ⟨B', hstep.inv⟩
  · rw [herr hfits]
    rfl

/-- **Ordinary runs** keep the invariant. -/
theorem run_ordinary (h : Throughout v os mem (Ordinary v) es) :
    Outcome (fun w => ∃ B, Inv os w B) (fun f => f = .addIndex) (run v os mem es) :=
  runFrom_outcome (fun _ _ ⟨_, hB⟩ he => hB.exec_ordinary he) ⟨[], .init os mem⟩ h

end Runs

end OsAllHw.Malloc
