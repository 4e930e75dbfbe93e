import OsAllHw.Malloc.Tiling

/-!
# Blocks keep out of each other's way

In `malloc_4.cpp` a live block is changed only by `srealloc` and `sfree` on
that very block, and a client that stays inside its payloads never hits a
header. Mapped blocks stay off the heap list and the histogram, unless
`srealloc` shrinks one of them below `MMAP_SIZE`: branch `a` splits it and
puts the tail on the list of the data segment.
-/

namespace OsAllHw.Malloc

open Lib

section Isolation

variable {os : Os} {w w' : World} {B : List Block} {p off : Nat} {byte : UInt8}

/-- A write inside a payload of the data segment leaves every header alone. -/
theorem Inv.write_headers (h : Inv os w B) (hmaps : w.heap.kernel.maps = [])
    (hp : p ∈ w.live) (hoff : off < w.sizeOf p) {x : Nat} (hx : x ∈ headerBytes (heads B)) :
    Function.update w.heap.mem (p + off) byte x = w.heap.mem x := by
  refine Function.update_of_ne ?_ _ _
  rintro rfl
  rcases h.cases hp with ⟨L, m, R, rfl, -, rfl⟩ | ⟨r, hr, -⟩
  · have hmem : m ∈ L ++ m :: R := by simp
    rw [h.sizeOf_block hmem] at hoff
    refine payload_notMem_headerBytes h.rep.core.layout hmem (Nat.le_add_right _ _) ?_ hx
    unfold Block.payload Block.fin
    omega
  · rw [hmaps] at hr
    cases hr

end Isolation

/-- **Isolation.** Take any run of small requests and writes, and one more
event. The event leaves the size and the bytes of every live block it is
not about as they were; if it is a write, it leaves every header on the heap
list (the free ones among them are those on the histogram) as it was. -/
theorem live_blocks_isolated (os : Os) (mem : Mem) (es : List Event) (w : World) (e : Event)
    (h : Throughout .malloc4 os mem (fun w e => Legal w e ∧ Small .malloc4 e) es)
    (hw : run .malloc4 os mem es = .ok w) (he : Legal w e ∧ Small .malloc4 e) :
    ∃ B, Core os w.heap B ∧ Binned w.heap (freeHeads B) ∧
      Outcome (fun w' => (∀ p ∈ w.live, p ∉ e.touches → Undisturbed w w' p) ∧
          ∀ p off byte, e = .write p off byte → ∀ x ∈ headerBytes (heads B),
            w'.heap.mem x = w.heap.mem x)
        (fun f => f = .addIndex) (exec .malloc4 os w e) := by
  have hrun := run_small (h.imp fun w e hw => ⟨hw.1, hw.2, .inl rfl⟩)
  rw [hw] at hrun
  obtain ⟨B, hinv, hmaps⟩ := hrun
  refine ⟨B, hinv.rep.core, hinv.rep.binned, ?_⟩
  have hexec := hinv.exec_small hmaps he.1 he.2 (.inl rfl)
  cases hres : exec .malloc4 os w e with
  | error f =>
      rw [hres] at hexec
      exact hexec
  | ok w' =>
      rw [hres] at hexec
      obtain ⟨B', hstep, -⟩ := hexec
      refine ⟨hstep.others, ?_⟩
      rintro p off byte rfl x hx
      obtain rfl : _ = w' := Except.ok.inj hres
      exact hinv.write_headers hmaps he.1.1 he.1.2 hx

set_option maxRecDepth 100000 in
/-- The block at 5192 stays what it is while its neighbour is released. -/
theorem live_blocks_isolated_neighbour : ∃ w w',
    run .malloc4 .generous (fun _ => 0) [.smalloc 1000, .smalloc 304, .write 5192 0 7] = .ok w ∧
      exec .malloc4 .generous w (.sfree 4144) = .ok w' ∧ Undisturbed w w' 5192 := by
  have hok : Outcome (fun w => w.live = [5192, 4144] ∧
      Outcome (fun _ => True) (fun _ => False) (exec .malloc4 .generous w (.sfree 4144)))
      (fun _ => False) (run .malloc4 .generous (fun _ => 0)
        [.smalloc 1000, .smalloc 304, .write 5192 0 7]) := by decide +kernel
  obtain ⟨w, hw, hlive, hexec⟩ := hok.exists_ok
  obtain ⟨w', hw', -⟩ := hexec.exists_ok
  obtain ⟨B, -, -, hiso⟩ := live_blocks_isolated .generous (fun _ => 0) _ w (.sfree 4144)
    (by decide +kernel) hw ⟨by rw [Legal, hlive]; decide, trivial⟩
  rw [hw'] at hiso
  exact ⟨w, w', hw, hw', hiso.1 5192 (by rw [hlive]; decide) (by simp [Event.touches])⟩

/-! ## Mappings -/

/-- The heap list and the histogram stay inside the data segment and the
mappings outside; the statics tell what there is, and so does `sfree`. -/
structure Separated (os : Os) (w : World) (B : List Block) : Prop where
  list : Core os w.heap B
  histogram : Binned w.heap (freeHeads B)
  inside : ∀ b ∈ B, os.brk0 ≤ b.addr ∧ b.fin ≤ os.limit
  outside : ∀ r ∈ w.heap.kernel.maps, r.1 + r.2 ≤ os.brk0 ∨ os.limit ≤ r.1
  listEnd : w.heap.allListEnd = 0 ↔ B = []
  live : ∀ r ∈ w.heap.kernel.maps, r.1 + metaSize ∈ w.live
  blocksNum : w.heap.mmapedBlocksNum = w.heap.kernel.maps.length
  bytesNum : w.heap.mmapedBytesNum =
    (w.heap.kernel.maps.map fun r => w.sizeOf (r.1 + metaSize)).sum
  /-- `sfree` unmaps exactly the mapped blocks. -/
  unmaps : ∀ p ∈ w.live, w.JoinFits p → ∃ w', exec .malloc4 os w (.sfree p) = .ok w' ∧
    ((∃ r ∈ w.heap.kernel.maps, r.1 + metaSize = p ∧
        w'.heap.kernel.munmaps = r :: w.heap.kernel.munmaps) ∨
      (p ∉ mapPayloads w.heap.kernel.maps ∧
        w'.heap.kernel.munmaps = w.heap.kernel.munmaps))

section Separation

variable {os : Os} {w : World} {B : List Block} {p : Nat}

theorem Inv.sfree_unmaps (h : Inv os w B) (hp : p ∈ w.live) (hfits : w.JoinFits p) :
    ∃ w', exec .malloc4 os w (.sfree p) = .ok w' ∧
      ((∃ r ∈ w.heap.kernel.maps, r.1 + metaSize = p ∧
          w'.heap.kernel.munmaps = r :: w.heap.kernel.munmaps) ∨
        (p ∉ mapPayloads w.heap.kernel.maps ∧
          w'.heap.kernel.munmaps = w.heap.kernel.munmaps)) := by
  obtain ⟨hok, -⟩ := Step.sfree True True True h hp
  obtain ⟨s', B', hrun, hstep⟩ := hok hfits
  refine ⟨_, by rw [exec, hrun]; rfl, ?_⟩
  rcases hstep.unmaps with ⟨hsame, hkept⟩ | ⟨r, hr, hrp, hmun⟩
  · -- a mapping that is still there would still be the client's
    refine .inr ⟨?_, hsame⟩
    rintro ⟨r, hr, rfl⟩
    have hlive := (hstep.inv.live (r.1 + metaSize)).mpr (.inr ⟨r, hkept r hr, rfl⟩)
    exact (h.nodup.mem_erase_iff.mp hlive).1 rfl
  · exact .inl ⟨r, hr, hrp, hmun⟩

theorem lastAddr_eq_zero_iff (h : Core os s B) : lastAddr B = 0 ↔ B = [] := by
  rcases List.eq_nil_or_concat B with rfl | ⟨L, b, rfl⟩
  · simp
  · rw [List.concat_eq_append] at *
    have hb := (h.layout.bounds (b := b) (by simp)).1
    have := os.brk0_pos
    rw [lastAddr_concat]
    simp only [List.append_eq_nil_iff, List.cons_ne_nil, and_false, iff_false]
    omega

theorem Inv.separated (h : Inv os w B) : Separated os w B where
  list := h.rep.core
  histogram := h.rep.binned
  inside := fun b hb => ⟨(h.rep.core.layout.bounds hb).1,
    (h.rep.core.fin_le hb).trans h.rep.core.brk_le⟩
  outside := fun r hr => (h.mapped.range r hr).2.2
  listEnd := by rw [h.rep.core.last, lastAddr_eq_zero_iff h.rep.core]
  live := fun r hr => (h.live _).mpr (.inr ⟨r, hr, rfl⟩)
  blocksNum := h.mapped.blocksNum
  bytesNum := by
    have hsizes : (fun r : Nat × Nat => w.sizeOf (r.1 + metaSize)) =
        fun r => w.heap.get .size r.1 := by
      funext r
      rw [World.sizeOf, Nat.add_sub_cancel]
    rw [hsizes, h.mapped.bytesNum]
  unmaps := fun _ hp hfits => h.sfree_unmaps hp hfits

end Separation

/-- **Separation.** In every run that splits no mapped block and whose merges
fit, requests of any size keep the two kinds of blocks apart. -/
theorem mapped_separated (os : Os) (mem : Mem) (es : List Event)
    (h : Throughout .malloc4 os mem (fun w e => Legal w e ∧ NoMappedSplit .malloc4 w e ∧
      MergeFits .malloc4 os w e) es) :
    ∃ w, run .malloc4 os mem es = .ok w ∧ ∃ B, Separated os w B := by
  obtain ⟨w, hw, B, hinv⟩ := run_fits (v := .malloc4)
    (h.imp fun w e hw => ⟨⟨hw.1, hw.2.1, .inl rfl⟩, hw.2.2⟩)
  exact ⟨w, hw, B, hinv.separated⟩

set_option maxRecDepth 100000 in
/-- A mapped block grown, a small one moved to a mapping, both released. -/
theorem mapped_separated_both_sides : ∃ w, run .malloc4 .generous (fun _ => 0)
      [.smalloc 131072, .srealloc 2199023255600 200000, .smalloc 1000, .srealloc 4144 150000,
        .sfree 2200096997424, .sfree 2201170739248] = .ok w ∧ ∃ B, Separated .generous w B :=
  mapped_separated .generous (fun _ => 0) _ (by decide +kernel)

set_option maxRecDepth 100000 in
/-- A mapped block of 131072 bytes, shrunk to 1000: the part cut off becomes
`all_list_end` while the list from `all_list_head` is empty. -/
theorem mapped_split_breaks_list :
    Throughout .malloc4 .generous (fun _ => 0)
      (fun w e => Legal w e ∧ MergeFits .malloc4 .generous w e)
      [.smalloc 131072, .srealloc 2199023255600 1000] ∧
    ∃ w, run .malloc4 .generous (fun _ => 0)
        [.smalloc 131072, .srealloc 2199023255600 1000] = .ok w ∧
      ¬∃ B, Separated .generous w B := by
  refine ⟨by decide +kernel, ?_⟩
  have hok : Outcome (fun w => w.heap.allListHead = 0 ∧ w.heap.allListEnd ≠ 0)
      (fun _ => False) (run .malloc4 .generous (fun _ => 0)
        [.smalloc 131072, .srealloc 2199023255600 1000]) := by decide +kernel
  obtain ⟨w, hw, hhead, hend⟩ := hok.exists_ok
  refine ⟨w, hw, ?_⟩
  rintro ⟨B, hsep⟩
  have hne : B ≠ [] := fun hB => hend (hsep.listEnd.mpr hB)
  rw [hsep.list.head] at hhead
  cases B with
  | nil => exact hne rfl
  | cons b B =>
      have hb := (hsep.inside b (by simp)).1
      have := Os.generous.brk0_pos
      rw [firstAddr_cons] at hhead
      omega

end OsAllHw.Malloc
