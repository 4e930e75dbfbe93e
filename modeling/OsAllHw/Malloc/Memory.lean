import OsAllHw.Lib.Arrays
import OsAllHw.Malloc.Contents

/-!
# `malloc_4.cpp` as memory

What the allocator is for: its client can take each block for an array of the
length it asked for. `Serves` of the library is shown for every event, and with
it for every run that the arrays of the client are in the heap.
-/

namespace OsAllHw.Malloc

open Lib

/-- What an event asks for; `scalloc` multiplies in `size_t`. -/
def Event.request : Event → Arrays.Op UInt8
  | .smalloc size => .alloc size none
  | .scalloc num size => .alloc (sizeT (num * size)) (some 0)
  | .srealloc oldp size => .resize oldp size
  | .sfree p => .release p
  | .write p off byte => .store p off byte

/-- The pointer that a call returned. -/
def pointer : Except Fault (Nat × Heap) → Nat
  | .ok x => x.1
  | .error _ => 0

/-- What an event asked for, with the pointer it got. -/
def answer (v : Version) (os : Os) (w : World) (e : Event) : Arrays.Op UInt8 × Nat :=
  (e.request,
    match e with
    | .smalloc size => pointer (smalloc v os w.heap size)
    | .scalloc num size => pointer (scalloc v os w.heap num size)
    | .srealloc oldp size => pointer (srealloc v os w.heap oldp size)
    | .sfree _ => 0
    | .write _ _ _ => 0)

/-- What the client sees. -/
def World.view (w : World) : Arrays.View UInt8 := ⟨w.live, w.sizeOf, w.heap.mem⟩

section Serves

variable {os : Os} {w w' : World} {B B' : List Block} {p q r size : Nat} {x : Nat × Heap}

theorem Undisturbed.same (h : Undisturbed w w' p) : Arrays.Same w.view w'.view p :=
  ⟨h.live, h.size, h.bytes⟩

theorem Inv.metaSize_le (h : Inv os w B) (hp : p ∈ w.live) : metaSize ≤ p :=
  (live_region h.rep h.mapped ((h.live p).mp hp)).2.1

/-- The size of a block is in front of it. -/
theorem World.sizeOf_congr (hp : metaSize ≤ p) (hmem : ∀ y < p, w'.heap.mem y = w.heap.mem y) :
    w'.sizeOf p = w.sizeOf p := by
  have hend := Field.size.end_le
  exact Mem.loadLE_congr fun y _ hy => hmem y (by omega)

/-- A pointer handed out serves an allocation. -/
theorem Step.serves_alloc {clear small eights : Prop} {n : Nat} {init : Option UInt8}
    (hstep : Step os ∅ clear small eights w B (w.give x) B')
    (hroom : x.1 ≠ 0 → n ≤ (w.give x).sizeOf x.1)
    (hinit : x.1 ≠ 0 → ∀ b, init = some b → ∀ i < n, x.2.mem (x.1 + i) = b) :
    Arrays.Serves w.view (.alloc n init) x.1 (w.give x).view := by
  have hothers : ∀ y ∈ w.live, Arrays.Same w.view (w.give x).view y := fun y hy =>
    (hstep.others y hy fun hm => hm.elim).same
  have hgive : (w.give x).view.live = if x.1 = 0 then w.live else x.1 :: w.live := rfl
  obtain ⟨q, s⟩ := x
  by_cases hq : q = 0
  · subst hq
    refine .null (fun y => ?_) hothers
    rw [hgive, if_pos rfl]
    rfl
  · have hnodup := hstep.inv.nodup
    rw [World.give, if_neg hq] at hnodup
    refine .alloc hq (List.nodup_cons.mp hnodup).1 (fun y => ?_) hothers (hroom hq) (hinit hq)
    rw [hgive, if_neg hq]
    exact List.mem_cons

/-- `smalloc`, by whatever size it is called with in the end. -/
theorem Inv.smalloc_serves (h : Inv os w B) (v : Version) (hsize : IsWord size) :
    ∃ x B', smalloc v os w.heap size = .ok x ∧ Inv os (w.give x) B' ∧
      Arrays.Serves w.view (.alloc size none) x.1 (w.give x).view := by
  obtain ⟨x, B', hrun, hstep, hlen⟩ := Step.smalloc v size False False False h False.elim False.elim
  refine ⟨x, B', hrun, hstep.inv, hstep.serves_alloc (fun hx => ?_) (by simp)⟩
  obtain ⟨h0, hle⟩ := hlen hx
  exact (le_round hsize h0).trans hle

/-- **`scalloc`** returns zeros. -/
theorem Inv.scalloc_serves (h : Inv os w B) (v : Version) (num size : Nat) :
    ∃ x B', scalloc v os w.heap num size = .ok x ∧ Inv os (w.give x) B' ∧
      Arrays.Serves w.view (.alloc (sizeT (num * size)) (some 0)) x.1 (w.give x).view := by
  have hword : IsWord (sizeT (num * size)) := by
    unfold IsWord sizeT
    omega
  obtain ⟨x, B', hrun, hstep⟩ := Step.scalloc v num size False False False h False.elim False.elim
  obtain ⟨x₀, B₀, hrun₀, hstep₀, hlen⟩ :=
    Step.smalloc v (sizeT (num * size)) False False False h False.elim False.elim
  refine ⟨x, B', hrun, hstep.inv, ?_⟩
  by_cases hx : x₀.1 = 0
  · have hnull : scalloc v os w.heap num size = .ok (0, x₀.2) := by
      rw [scalloc, hrun₀, ok_bind]
      exact if_pos hx
    obtain rfl := Except.ok.inj (hrun.symm.trans hnull)
    exact hstep.serves_alloc (fun hne => absurd rfl hne) fun hne => absurd rfl hne
  · have hclear : scalloc v os w.heap num size = .ok (x₀.1,
        { x₀.2 with mem := x₀.2.mem.fillBytes x₀.1 (sizeT (num * size)) 0 }) := by
      rw [scalloc, hrun₀, ok_bind]
      exact if_neg hx
    obtain rfl := Except.ok.inj (hrun.symm.trans hclear)
    obtain ⟨h0, hle⟩ := hlen hx
    have hmem := World.mem_give (w := w) hx
    refine hstep.serves_alloc (fun _ => ?_) ?_
    · refine ((le_round hword h0).trans hle).trans_eq (World.sizeOf_congr
        (hstep₀.inv.metaSize_le hmem) fun y hy => ?_).symm
      exact Mem.fillBytes_of_outside _ (.inl hy)
    · rintro _ b ⟨⟩ i hi
      exact if_pos ⟨Nat.le_add_right _ _, Nat.add_lt_add_left hi _⟩

/-- What `srealloc` of a live block keeps, as long as it does not split a
mapping. -/
theorem Inv.srealloc_preserved (h : Inv os w B) (hp : p ∈ w.live)
    (hsplit : NoMappedSplit .malloc4 w (.srealloc p size))
    (hrun : srealloc .malloc4 os w.heap p size = .ok x) :
    Preserved os w.heap p (w.sizeOf p) (roundUp size) x := by
  have hfit : srealloc .malloc4 os w.heap p size ≠ .error .addIndex := by simp [hrun]
  have hp0 : p ≠ 0 := fun h0 => h.zero_notMem (h0 ▸ hp)
  by_cases hmax : roundUp size = 0 ∨ maxRequest < roundUp size
  · have hmax' : Version.malloc4.round size = 0 ∨ maxRequest < Version.malloc4.round size := hmax
    rw [srealloc] at hrun
    simp only [if_pos hmax'] at hrun
    obtain rfl := Except.ok.inj hrun
    exact .null (live_region h.rep h.mapped ((h.live p).mp hp)).1 rfl (.refl _ _ _)
  rw [not_or, Nat.not_lt] at hmax
  rcases Nat.lt_or_ge (roundUp size) mmapSize with hlt | hbig
  · rcases h.cases hp with ⟨L, m, R, rfl, hm, rfl⟩ | ⟨t, ht, rfl⟩
    · obtain ⟨x', hrun', hpres⟩ := srealloc_small_preserved size h.rep hm hmax.1 hlt hfit
      obtain rfl := Except.ok.inj (hrun.symm.trans hrun')
      rwa [h.sizeOf_block (by simp)]
    · -- a mapping stays as it is
      have hsz : w.sizeOf (t.1 + metaSize) = w.heap.get .size t.1 := by
        rw [World.sizeOf, Nat.add_sub_cancel]
      have hbig' := (h.mapped.size t ht).2
      have hkeep := hsplit hp0 (by rw [hsz]; exact hbig') hmax.1 hlt
      have hword := (h.mapped.range t ht).2.1
      have hlen := h.sizeOf_map ht
      rw [hsz] at hkeep hlen ⊢
      have hround : Version.malloc4.round size = roundUp size := rfl
      have hsub : subT (w.heap.get .size t.1) (roundUp size) =
          w.heap.get .size t.1 - roundUp size := subT_of_le (by omega) (by omega)
      rw [hround] at hkeep
      rw [srealloc] at hrun
      simp only [hround, if_neg (show ¬(roundUp size = 0 ∨ maxRequest < roundUp size) by omega),
        if_neg hp0, if_neg (Nat.not_le.mpr hlt), Nat.add_sub_cancel, hsub] at hrun
      rw [if_pos (by omega), if_neg (by omega)] at hrun
      obtain rfl := Except.ok.inj hrun
      refine .block hp0 (h.mapped.liveAt ht) ?_ (.refl _ _ _)
      rw [Nat.add_sub_cancel]
      omega
  · obtain ⟨x', hrun', hpres⟩ :=
      srealloc_large_preserved h.rep h.mapped ((h.live p).mp hp) hbig hmax.2 hfit
    obtain rfl := Except.ok.inj (hrun.symm.trans hrun')
    exact hpres

/-- **`srealloc`** of a live pointer keeps what is in the array. -/
theorem Inv.srealloc_serves (h : Inv os w B) (hp : p ∈ w.live) (hsize : IsWord size)
    (hsplit : NoMappedSplit .malloc4 w (.srealloc p size)) :
    Outcome (fun w' => (∃ B', Inv os w' B') ∧ Arrays.Serves w.view (.resize p size)
        (pointer (srealloc .malloc4 os w.heap p size)) w'.view) (fun f => f = .addIndex)
      (exec .malloc4 os w (.srealloc p size)) := by
  obtain ⟨hok, herr⟩ :=
    Step.srealloc h hp hsplit (.inl rfl) False.elim False.elim False.elim
  by_cases hfits : MergeFits .malloc4 os w (.srealloc p size)
  · obtain ⟨x, B', hrun, hstep⟩ := hok hfits
    have hpres := h.srealloc_preserved hp hsplit hrun
    rw [exec, hrun]
    refine ⟨⟨B', hstep.inv⟩, ?_⟩
    obtain ⟨q, s⟩ := x
    by_cases hq : q = 0
    · subst hq
      rw [Preserved, if_pos rfl] at hpres
      refine .kept (fun y => by simp [World.view]) fun y hy => ?_
      by_cases hyp : y = p
      · subst hyp
        exact ⟨by simpa [World.view] using hp, hpres.2.1, hpres.2.2⟩
      · exact (hstep.others y hy hyp).same
    · rw [Preserved, if_neg hq] at hpres
      simp only [if_neg hq] at hstep ⊢
      have hround : roundUp size ≠ 0 := by
        intro h0
        have hmax : Version.malloc4.round size = 0 ∨ maxRequest < Version.malloc4.round size :=
          .inl h0
        rw [srealloc] at hrun
        simp only [if_pos hmax] at hrun
        exact hq (congrArg Prod.fst (Except.ok.inj hrun)).symm
      have hle : size ≤ roundUp size := le_round (v := .malloc4) hsize hround
      have hnew := (List.nodup_cons.mp hstep.inv.nodup).1
      refine .resize hq ?_ (fun y => ?_) (fun y hy hyp => (hstep.others y hy hyp).same)
        (hle.trans hpres.2.1) fun _ i hi => hpres.2.2 i ?_
      · by_cases hqp : q = p
        · exact .inl hqp
        · exact .inr fun hm => hnew ((List.mem_erase_of_ne hqp).mpr hm)
      · change y ∈ q :: w.live.erase p ↔ _
        rw [List.mem_cons, h.nodup.mem_erase_iff, and_comm (a := y ≠ p)]
        rfl
      · have hi' : i < min (w.sizeOf p) size := hi
        omega
  · rw [exec, herr hfits]
    rfl

/-- Without an old block `srealloc` is `smalloc`, which rounds once more. -/
theorem Inv.srealloc_null_serves (h : Inv os w B) (hsize : IsWord size) :
    Outcome (fun w' => (∃ B', Inv os w' B') ∧ Arrays.Serves w.view (.resize 0 size)
        (pointer (srealloc .malloc4 os w.heap 0 size)) w'.view) (fun f => f = .addIndex)
      (exec .malloc4 os w (.srealloc 0 size)) := by
  have herase : w.live.erase 0 = w.live := List.erase_of_not_mem h.zero_notMem
  by_cases hmax : Version.malloc4.round size = 0 ∨ maxRequest < Version.malloc4.round size
  · have hrun : srealloc .malloc4 os w.heap 0 size = .ok (0, w.heap) := by
      rw [srealloc]
      simp only [if_pos hmax]
      rfl
    rw [exec, hrun]
    exact ⟨⟨B, h⟩, .kept (fun y => Iff.rfl) fun y hy => ⟨hy, rfl, fun _ _ => rfl⟩⟩
  · have hround : IsWord (Version.malloc4.round size) := by
      have hmr : maxRequest = 100000000 := rfl
      unfold IsWord
      omega
    obtain ⟨x, B', hsm, hinv, hserves⟩ := h.smalloc_serves .malloc4 hround
    have hrun : srealloc .malloc4 os w.heap 0 size = .ok x := by
      rw [srealloc]
      simp only [if_neg hmax, if_true, hsm]
    rw [exec, hrun, herase]
    refine ⟨⟨B', hinv⟩, hserves.resizes h.zero_notMem (le_round hsize fun h0 => hmax (.inl h0))⟩

/-- **`sfree`**, also of `NULL`. -/
theorem Inv.sfree_serves (h : Inv os w B) (hp : p = 0 ∨ p ∈ w.live) :
    Outcome (fun w' => (∃ B', Inv os w' B') ∧ Arrays.Serves w.view (.release p) 0 w'.view)
      (fun f => f = .addIndex) (exec .malloc4 os w (.sfree p)) := by
  have hlive : ∀ y, y ∈ w.live.erase p ↔ y ∈ w.live ∧ y ≠ p := fun y => by
    rw [h.nodup.mem_erase_iff, and_comm]
  obtain rfl | hp := hp
  · have hrun : sfree w.heap 0 = .ok w.heap := rfl
    have herase : w.live.erase 0 = w.live := List.erase_of_not_mem h.zero_notMem
    rw [exec, hrun]
    refine ⟨⟨B, ?_⟩, .release hlive fun y hy hne => ⟨(hlive y).mpr ⟨hy, hne⟩, rfl, fun _ _ => rfl⟩⟩
    rw [herase]
    exact h
  · obtain ⟨hok, herr⟩ := Step.sfree False False False h hp
    by_cases hfits : w.JoinFits p
    · obtain ⟨s', B', hrun, hstep⟩ := hok hfits
      rw [exec, hrun]
      exact ⟨⟨B', hstep.inv⟩, .release hlive fun y hy hne => (hstep.others y hy hne).same⟩
    · rw [exec, herr hfits]
      rfl

/-- **A write** of the client. -/
theorem Inv.write_serves {off : Nat} {byte : UInt8} (h : Inv os w B)
    (hlegal : Legal w (.write p off byte)) :
    Outcome (fun w' => (∃ B', Inv os w' B') ∧ Arrays.Serves w.view (.store p off byte) 0 w'.view)
      (fun f => f = .addIndex) (exec .malloc4 os w (.write p off byte)) := by
  obtain ⟨hp, hoff⟩ := hlegal
  have hstep := Step.write False False False h hp (Function.update w.heap.mem (p + off) byte)
    fun y hy => Function.update_of_ne (by omega) _ _
  refine ⟨⟨B, hstep.inv⟩, .store hp (fun y => Iff.rfl)
    (fun y hy hne => (hstep.others y hy hne).same) ?_ (Function.update_self ..)
    fun j _ hj => Function.update_of_ne (by omega) _ _⟩
  exact World.sizeOf_congr (h.metaSize_le hp) fun y hy => Function.update_of_ne (by omega) _ _

/-- **One event** serves what it asks for. -/
theorem Inv.exec_serves {e : Event} (h : Inv os w B) (he : Ordinary .malloc4 w e) :
    Outcome (fun w' => (∃ B', Inv os w' B') ∧ Arrays.Serves w.view
        (answer .malloc4 os w e).1 (answer .malloc4 os w e).2 w'.view) (fun f => f = .addIndex)
      (exec .malloc4 os w e) := by
  obtain ⟨hlegal, hsplit, -⟩ := he
  cases e with
  | smalloc size =>
      obtain ⟨x, B', hrun, hinv, hserves⟩ := h.smalloc_serves .malloc4 hlegal
      rw [exec, hrun]
      refine ⟨⟨B', hinv⟩, ?_⟩
      simpa only [answer, hrun, pointer, Event.request] using hserves
  | scalloc num size =>
      obtain ⟨x, B', hrun, hinv, hserves⟩ := h.scalloc_serves .malloc4 num size
      rw [exec, hrun]
      refine ⟨⟨B', hinv⟩, ?_⟩
      simpa only [answer, hrun, pointer, Event.request] using hserves
  | srealloc oldp size =>
      obtain ⟨rfl | hp, hsize⟩ := hlegal
      · exact h.srealloc_null_serves hsize
      · exact h.srealloc_serves hp hsize hsplit
  | sfree p => exact h.sfree_serves hlegal
  | write p off byte => exact h.write_serves hlegal

end Serves

/-! ## Runs -/

/-- What the events of a run asked for, and the pointers they got. -/
def calls (v : Version) (os : Os) (mem : Mem) (es : List Event) : List (Arrays.Op UInt8 × Nat) :=
  transcript (exec v os) (answer v os) (.init os mem) es

/-- **The heap is a memory.** After any run of a client that uses live pointers
and stays inside its blocks, as long as no mapping is split: the pointers are
those of arrays that have got the lengths asked for, and each byte of them that
was ever set is in the heap as it was set last, by a write, by `scalloc` or by
the copy of `srealloc`. -/
theorem heap_is_memory (os : Os) (mem : Mem) (es : List Event)
    (h : Throughout .malloc4 os mem (Ordinary .malloc4) es) :
    Outcome (fun w => ∃ a, runFrom Arrays.call .init (calls .malloc4 os mem es) = .ok a ∧
        Arrays.Shows w.view a) (fun f => f = .addIndex) (run .malloc4 os mem es) :=
  Arrays.Shows.runs World.view (I := fun w => ∃ B, Inv os w B)
    (fun _ _ hinv he => hinv.elim fun _ hB => hB.exec_serves he)
    ⟨[], .init os mem⟩ (.init rfl) h

set_option maxRecDepth 100000 in
/-- Zeros, a byte over one of them, and a move to where there is more room. -/
theorem heap_is_memory_moved : ∃ w a,
    run .malloc4 .generous (fun _ => 7) [.scalloc 2 10, .write 4144 3 9, .smalloc 8,
      .srealloc 4144 40] = .ok w ∧
    runFrom Arrays.call .init (calls .malloc4 .generous (fun _ => 7) [.scalloc 2 10,
      .write 4144 3 9, .smalloc 8, .srealloc 4144 40]) = .ok a ∧ Arrays.Shows w.view a := by
  have hmemory := heap_is_memory .generous (fun _ => 7) [.scalloc 2 10, .write 4144 3 9, .smalloc 8,
    .srealloc 4144 40] (by decide +kernel)
  obtain ⟨w, hw, -⟩ := (show Outcome (fun _ => True) (fun _ => False) (run .malloc4 .generous
    (fun _ => 7) [.scalloc 2 10, .write 4144 3 9, .smalloc 8, .srealloc 4144 40]) by
      decide +kernel).exists_ok
  rw [hw] at hmemory
  obtain ⟨a, ha, hshows⟩ := hmemory
  exact ⟨w, a, hw, ha, hshows⟩

end OsAllHw.Malloc
