import OsAllHw.Lib.Arrays
import OsAllHw.Malloc2.Refines

/-!
# `malloc_2.cpp` as memory

The first-fit allocator keeps the arrays of its client, whatever `sbrk`
refuses: a header without a payload costs memory, but no byte of another block.
-/

namespace OsAllHw.Malloc2

open Lib
open OsAllHw.Malloc (Os sizeT)

/-- What an event asks for; `scalloc` multiplies in `size_t`. -/
def Event.request : Event → Arrays.Op UInt8
  | .smalloc size => .alloc size none
  | .scalloc num size => .alloc (sizeT (num * size)) (some 0)
  | .srealloc oldp size => .resize oldp size
  | .sfree p => .release p
  | .write p off byte => .store p off byte

/-- The pointer that a call returned. -/
def pointer : Except Fault (Nat × Heap) → Nat
  | .ok x => x.1
  | .error _ => 0

/-- What an event asked for, with the pointer it got. -/
def answer (os : Os) (w : World) (e : Event) : Arrays.Op UInt8 × Nat :=
  (e.request,
    match e with
    | .smalloc size => pointer (smalloc os w.heap size)
    | .scalloc num size => pointer (scalloc os w.heap num size)
    | .srealloc oldp size => pointer (srealloc os w.heap oldp size)
    | .sfree _ => 0
    | .write _ _ _ => 0)

/-- What the client sees. -/
def World.view (w : World) : Arrays.View UInt8 := ⟨w.live, w.sizeOf, w.heap.mem⟩

/-- The live pointers are those of different blocks in use. -/
structure Owned (os : Os) (w : World) (B : List Block) : Prop where
  rep : Rep os w.heap B
  live : ∀ p ∈ w.live, ∃ b ∈ B, b.kind = .used ∧ b.payload = p
  nodup : w.live.Nodup

theorem Owned.init (os : Os) (mem : Mem) : Owned os (.init os mem) [] :=
  ⟨(Inv.init os mem).rep, fun _ hp => absurd hp List.not_mem_nil, List.nodup_nil⟩

/-! ## Blocks -/

section Blocks

variable {os : Os} {B B' : List Block} {b m : Block} {r brk lo q : Nat}

theorem Reallocates.mem_used (h : Reallocates r brk B m B' q) (hm : m.kind = .used) (hb : b ∈ B)
    (hk : b.kind = .used) (hne : b ≠ m ∨ q = 0) : b ∈ B' := by
  cases h with
  | keep hr => exact hb
  | null B' hlt halloc => exact halloc.mem_used hb hk
  | move L R q hlt hq halloc hm' =>
      have hin := halloc.mem_used hb hk
      simp only [List.mem_append, List.mem_cons, hne.resolve_right hq, false_or] at hin ⊢
      exact hin.imp_right Or.inr
  | moveFree B' q hlt hq halloc hm' =>
      rw [hm] at hm'
      cases hm'

/-- The block behind the pointer that `srealloc` returns; it is the old one, or
was not in use. -/
theorem Reallocates.exists_block (h : Reallocates r brk B m B' q) (hm : m.kind = .used)
    (hmem : m ∈ B) (hB : Tiles lo B brk) (hq : q ≠ 0) :
    (∃ n ∈ B', n.kind = .used ∧ n.payload = q ∧ r ≤ n.size) ∧
      ∀ b ∈ B, b.kind = .used → b ≠ m → b.payload ≠ q := by
  cases h with
  | keep hr =>
      exact ⟨⟨m, hmem, hm, rfl, hr⟩, fun b hb _ hne he =>
        hne (hB.eq_of_addr hb hmem (payload_inj.mp he))⟩
  | null B' hlt halloc => exact absurd rfl hq
  | move L R q hlt hq halloc hm' =>
      obtain ⟨n, hn, hnk, hnp, hnr⟩ := halloc.exists_block hq
      have hnm : n ≠ m := fun he => halloc.notMem_used hq hB hmem hm (he ▸ hnp)
      refine ⟨⟨n, ?_, hnk, hnp, hnr⟩, fun b hb hk _ => halloc.notMem_used hq hB hb hk⟩
      simp only [List.mem_append, List.mem_cons, hnm, false_or] at hn ⊢
      exact hn.imp_right Or.inr
  | moveFree B' q hlt hq halloc hm' =>
      rw [hm] at hm'
      cases hm'

end Blocks

/-! ## One event -/

section Serves

variable {os : Os} {w w' : World} {B B' : List Block} {b m : Block} {p q r size : Nat}
  {x : Nat × Heap} {own : Set Nat} {e : Event}

theorem Rep.sizeOf (h : Rep os w.heap B) (hb : b ∈ B) : w.sizeOf b.payload = b.size := by
  rw [World.sizeOf, Block.payload, Nat.add_sub_cancel]
  exact h.size b hb

/-- A block that is in both lists with the same bytes. -/
theorem Rep.same (h : Rep os w.heap B) (h' : Rep os w'.heap B') (hb : b ∈ B) (hb' : b ∈ B')
    (hk : b.kind = .used) (hlive : b.payload ∈ w'.live)
    (hbytes : ∀ i, b.payload ≤ i → i < b.fin → w'.heap.mem i = w.heap.mem i) :
    Arrays.Same w.view w'.view b.payload := by
  have hfin := b.fin_used (by simp [hk])
  refine ⟨hlive, (h'.sizeOf hb').trans (h.sizeOf hb).symm, fun i hi => ?_⟩
  have hi' : i < w.sizeOf b.payload := hi
  rw [h.sizeOf hb] at hi'
  exact hbytes _ (Nat.le_add_right _ _) (by omega)

theorem Owned.zero_notMem (h : Owned os w B) : 0 ∉ w.live := by
  intro h0
  obtain ⟨b, -, -, hb⟩ := h.live 0 h0
  exact Nat.succ_ne_zero _ hb

theorem Owned.erase_zero (h : Owned os w B) : w.live.erase 0 = w.live :=
  List.erase_of_not_mem h.zero_notMem

/-- **Allocation**, by whatever name: `n` of the `r` bytes are set to `init`. -/
theorem Owned.allocated {n : Nat} {init : Option UInt8} (h : Owned os w B) (e : Event)
    (halloc : Allocates r w.heap.kernel.brk B B' x.1) (hans : Answers os own B B' w.heap x)
    (hown : own ⊆ {x.1}) (hn : n ≤ r)
    (hinit : x.1 ≠ 0 → ∀ b, init = some b → ∀ i < n, x.2.mem (x.1 + i) = b) :
    Owned os (w.give e w.live x) B' ∧
      Arrays.Serves w.view (.alloc n init) x.1 (w.give e w.live x).view := by
  have hlive : (w.give e w.live x).live = if x.1 = 0 then w.live else x.1 :: w.live := rfl
  have hnot : ∀ b ∈ B, b.kind = .used → b.payload ≠ x.1 := by
    intro b hb hk he
    by_cases hx : x.1 = 0
    · exact Nat.succ_ne_zero _ (he.trans hx)
    · exact halloc.notMem_used hx h.rep.tiles hb hk he
  have hothers : ∀ y ∈ w.live, Arrays.Same w.view (w.give e w.live x).view y := by
    intro y hy
    obtain ⟨b, hb, hk, rfl⟩ := h.live y hy
    refine h.rep.same hans.rep hb (halloc.mem_used hb hk) hk ?_
      (hans.payloads b hb fun hin => hnot b hb hk (hown hin))
    rw [hlive]
    split
    · exact hy
    · exact List.mem_cons_of_mem _ hy
  have hblocks : ∀ y ∈ w.live, ∃ b ∈ B', b.kind = .used ∧ b.payload = y := by
    intro y hy
    obtain ⟨b, hb, hk, rfl⟩ := h.live y hy
    exact ⟨b, halloc.mem_used hb hk, hk, rfl⟩
  obtain ⟨q, s⟩ := x
  by_cases hq : q = 0
  · subst hq
    rw [if_pos rfl] at hlive
    exact ⟨⟨hans.rep, hlive ▸ hblocks, hlive ▸ h.nodup⟩, .null (fun y => by
      rw [show (w.give e w.live (0, s)).view.live = w.live from hlive]; rfl) hothers⟩
  · rw [if_neg hq] at hlive
    obtain ⟨c, hc, hck, hcq, hcr⟩ := halloc.exists_block hq
    have hnew : q ∉ w.live := by
      intro hmem
      obtain ⟨b, hb, hk, hbq⟩ := h.live q hmem
      exact hnot b hb hk hbq
    refine ⟨⟨hans.rep, fun y hy => ?_, ?_⟩, .alloc hq hnew (fun y => ?_) hothers ?_ (hinit hq)⟩
    · rw [hlive] at hy
      obtain rfl | hy := List.mem_cons.mp hy
      · exact ⟨c, hc, hck, hcq⟩
      · exact hblocks y hy
    · rw [hlive]
      exact List.nodup_cons.mpr ⟨hnew, h.nodup⟩
    · rw [show (w.give e w.live (q, s)).view.live = q :: w.live from hlive]
      exact List.mem_cons
    · have hsize : (w.give e w.live (q, s)).sizeOf c.payload = c.size :=
        Rep.sizeOf (w := w.give e w.live (q, s)) hans.rep hc
      have hcq' : c.payload = q := hcq
      rw [hcq'] at hsize
      exact (hn.trans hcr).trans hsize.ge

/-- Nothing but the log changed. -/
theorem Owned.refused (h : Owned os w B) (e : Event) (rest : List Nat) :
    Owned os (w.give e rest (0, w.heap)) B ∧
      ∀ y ∈ w.live, Arrays.Same w.view (w.give e rest (0, w.heap)).view y :=
  ⟨⟨h.rep, h.live, h.nodup⟩, fun _ hy => ⟨hy, rfl, fun _ _ => rfl⟩⟩

theorem Owned.smalloc_serves (h : Owned os w B) (e : Event) (size : Nat) :
    ∃ x B', smalloc os w.heap size = .ok x ∧ Owned os (w.give e w.live x) B' ∧
      Arrays.Serves w.view (.alloc size none) x.1 (w.give e w.live x).view := by
  by_cases hr : size = 0 ∨ maxRequest < size
  · obtain ⟨howned, hsame⟩ := h.refused e w.live
    exact ⟨_, B, smalloc_refuses os w.heap hr, howned, .null (fun y => Iff.rfl) hsame⟩
  · obtain ⟨x, B', hrun, halloc, hans⟩ := smalloc_spec (r := size) h.rep (by omega) (by omega)
    exact ⟨x, B', hrun, h.allocated e halloc hans (Set.empty_subset _) le_rfl (by simp)⟩

theorem Owned.scalloc_serves (h : Owned os w B) (e : Event) (num size : Nat) :
    ∃ x B', scalloc os w.heap num size = .ok x ∧ Owned os (w.give e w.live x) B' ∧
      Arrays.Serves w.view (.alloc (sizeT (num * size)) (some 0)) x.1 (w.give e w.live x).view := by
  by_cases hr : sizeT (num * size) = 0 ∨ maxRequest < sizeT (num * size)
  · obtain ⟨howned, hsame⟩ := h.refused e w.live
    refine ⟨(0, w.heap), B, ?_, howned, .null (fun y => Iff.rfl) hsame⟩
    rw [scalloc, smalloc_refuses os w.heap hr]
    rfl
  · obtain ⟨x, B', hrun, halloc, hans, hzero⟩ := scalloc_spec num size h.rep (by omega) (by omega)
    refine ⟨x, B', hrun, h.allocated e halloc hans subset_rfl le_rfl ?_⟩
    rintro hx b ⟨⟩
    exact hzero hx

/-- **`srealloc`** keeps what is in the array, in place or elsewhere. -/
theorem Owned.srealloc_serves (h : Owned os w B) (e : Event) (hp : p ∈ w.live) (size : Nat) :
    ∃ x B', srealloc os w.heap p size = .ok x ∧ Owned os (w.give e (w.live.erase p) x) B' ∧
      Arrays.Serves w.view (.resize p size) x.1 (w.give e (w.live.erase p) x).view := by
  by_cases hr : size = 0 ∨ maxRequest < size
  · obtain ⟨howned, hsame⟩ := h.refused e (w.live.erase p)
    refine ⟨(0, w.heap), B, ?_, howned, .kept (fun y => Iff.rfl) hsame⟩
    rw [srealloc, if_pos hr]
    rfl
  obtain ⟨m, hm, hmk, rfl⟩ := h.live p hp
  obtain ⟨x, B', hrun, hre, hans, hkept⟩ :=
    srealloc_spec (r := size) h.rep hm (by simp [hmk]) (by omega) (by omega)
  refine ⟨x, B', hrun, ?_⟩
  obtain ⟨w', hw'⟩ : ∃ w', w.give e (w.live.erase m.payload) x = w' := ⟨_, rfl⟩
  have hheap : w'.heap = x.2 := hw' ▸ rfl
  have hlive : w'.live = if x.1 = 0 then w.live else x.1 :: w.live.erase m.payload := hw' ▸ rfl
  have hrep : Rep os w'.heap B' := hheap ▸ hans.rep
  rw [hw']
  by_cases hx : x.1 = 0
  · rw [if_pos hx] at hlive
    have hstay : ∀ b ∈ B, b.kind = .used → b ∈ B' := fun b hb hk =>
      hre.mem_used hmk hb hk (.inr hx)
    have hsame : ∀ y ∈ w.live, Arrays.Same w.view w'.view y := by
      intro y hy
      obtain ⟨b, hb, hk, rfl⟩ := h.live y hy
      refine h.rep.same hrep hb (hstay b hb hk) hk (hlive ▸ hy) fun i h1 h2 => ?_
      rw [hheap]
      refine hans.payloads b hb (fun hin => ?_) i h1 h2
      exact Nat.succ_ne_zero _ ((Set.mem_singleton_iff.mp hin).trans hx)
    refine ⟨⟨hrep, fun y hy => ?_, hlive ▸ h.nodup⟩, hx ▸ .kept (fun y => ?_) hsame⟩
    · obtain ⟨b, hb, hk, rfl⟩ := h.live y (hlive ▸ hy)
      exact ⟨b, hstay b hb hk, hk, rfl⟩
    · rw [show w'.view.live = w.live from hlive]
      rfl
  · rw [if_neg hx] at hlive
    obtain ⟨⟨n, hn, hnk, hnp, hnr⟩, hnot⟩ := hre.exists_block hmk hm h.rep.tiles hx
    -- the other pointers are to other blocks, which stay
    have hother : ∀ y ∈ w.live, y ≠ m.payload → ∃ b ∈ B, b ∈ B' ∧ b.kind = .used ∧
        b.payload = y ∧ y ≠ x.1 := by
      intro y hy hne
      obtain ⟨b, hb, hk, rfl⟩ := h.live y hy
      have hbm : b ≠ m := fun he => hne (he ▸ rfl)
      exact ⟨b, hb, hre.mem_used hmk hb hk (.inl hbm), hk, rfl, hnot b hb hk hbm⟩
    have herase : ∀ y, y ∈ w.live.erase m.payload ↔ y ∈ w.live ∧ y ≠ m.payload := fun y => by
      rw [h.nodup.mem_erase_iff, and_comm]
    have hnew : x.1 ∉ w.live.erase m.payload := by
      intro hmem
      obtain ⟨hmem, hne⟩ := (herase _).mp hmem
      obtain ⟨-, -, -, -, -, hne'⟩ := hother _ hmem hne
      exact hne' rfl
    refine ⟨⟨hrep, fun y hy => ?_, ?_⟩, .resize hx ?_ (fun y => ?_) (fun y hy hne => ?_) ?_
      fun _ i hi => ?_⟩
    · rw [hlive] at hy
      obtain rfl | hy := List.mem_cons.mp hy
      · exact ⟨n, hn, hnk, hnp⟩
      · obtain ⟨hy, hne⟩ := (herase _).mp hy
        obtain ⟨b, -, hb', hk, hbp, -⟩ := hother y hy hne
        exact ⟨b, hb', hk, hbp⟩
    · rw [hlive]
      exact List.nodup_cons.mpr ⟨hnew, h.nodup.erase _⟩
    · by_cases hxm : x.1 = m.payload
      · exact .inl hxm
      · exact .inr fun hmem => hnew ((herase _).mpr ⟨hmem, hxm⟩)
    · rw [show w'.view.live = x.1 :: w.live.erase m.payload from hlive, List.mem_cons, herase]
      rfl
    · obtain ⟨b, hb, hb', hk, rfl, hne'⟩ := hother y hy hne
      refine h.rep.same hrep hb hb' hk ?_ fun i h1 h2 => ?_
      · rw [hlive]
        exact List.mem_cons_of_mem _ ((herase _).mpr ⟨hy, hne⟩)
      · rw [hheap]
        exact hans.payloads b hb hne' i h1 h2
    · have hsize : w'.sizeOf n.payload = n.size := hrep.sizeOf hn
      rw [hnp] at hsize
      exact hnr.trans hsize.ge
    · have hi' : i < min (w.sizeOf m.payload) size := hi
      rw [h.rep.sizeOf hm] at hi'
      change w'.heap.mem _ = _
      rw [hheap]
      exact hkept hx i (by omega)

/-- **`sfree`**, also of `NULL`. -/
theorem Owned.sfree_serves (h : Owned os w B) (hp : p = 0 ∨ p ∈ w.live) :
    ∃ w' B', exec os w (.sfree p) = .ok w' ∧ Owned os w' B' ∧
      Arrays.Serves w.view (.release p) 0 w'.view := by
  have herase : ∀ y, y ∈ w.live.erase p ↔ y ∈ w.live ∧ y ≠ p := fun y => by
    rw [h.nodup.mem_erase_iff, and_comm]
  obtain rfl | hp := hp
  · refine ⟨{ w with live := w.live.erase 0, log := (.sfree 0, 0) :: w.log }, B,
      by rw [exec, sfree, if_pos rfl]; rfl, ⟨h.rep, ?_, h.nodup.erase 0⟩, .release herase ?_⟩
    · rw [h.erase_zero]
      exact h.live
    · exact fun y hy hne => ⟨(herase y).mpr ⟨hy, hne⟩, rfl, fun _ _ => rfl⟩
  · obtain ⟨m, hm, hk, rfl⟩ := h.live p hp
    obtain ⟨s', B', hrun, hrep, -, hbytes, hB⟩ := sfree_spec h.rep hm (by simp [hk])
    obtain ⟨hfree, -⟩ | ⟨-, L, R, rfl, rfl⟩ := hB
    · rw [hk] at hfree
      cases hfree
    have hother : ∀ y ∈ w.live.erase m.payload, ∃ b ∈ L ++ m :: R,
        b ∈ L ++ ⟨m.addr, m.size, .free⟩ :: R ∧ b.kind = .used ∧ b.payload = y := by
      intro y hy
      obtain ⟨hy, hne⟩ := (herase y).mp hy
      obtain ⟨b, hb, hbk, rfl⟩ := h.live y hy
      have hbm : b ≠ m := fun he => hne (he ▸ rfl)
      refine ⟨b, hb, ?_, hbk, rfl⟩
      simp only [List.mem_append, List.mem_cons, hbm, false_or] at hb ⊢
      exact hb.imp_right Or.inr
    refine ⟨{ w with
        heap := s', live := w.live.erase m.payload, log := (.sfree m.payload, 0) :: w.log }, _,
      by rw [exec, hrun]; rfl, ⟨hrep, fun y hy => ?_, h.nodup.erase _⟩,
      .release herase fun y hy hne => ?_⟩
    · obtain ⟨b, -, hb', hbk, hby⟩ := hother y hy
      exact ⟨b, hb', hbk, hby⟩
    · have hy' := (herase y).mpr ⟨hy, hne⟩
      obtain ⟨b, hb, hb', hbk, rfl⟩ := hother y hy'
      exact h.rep.same hrep hb hb' hbk hy' (hbytes b hb)

/-- **A write** of the client. -/
theorem Owned.write_serves {off : Nat} {byte : UInt8} (h : Owned os w B)
    (hlegal : Legal w (.write p off byte)) :
    ∃ w', exec os w (.write p off byte) = .ok w' ∧ Owned os w' B ∧
      Arrays.Serves w.view (.store p off byte) 0 w'.view := by
  obtain ⟨hp, hoff⟩ := hlegal
  obtain ⟨m, hm, hk, rfl⟩ := h.live p hp
  rw [h.rep.sizeOf hm] at hoff
  have hfin := m.fin_used (by simp [hk])
  have hrep := h.rep.writeIn (m := Function.update w.heap.mem (m.payload + off) byte) hm
    fun y hy => Function.update_of_ne (by omega) _ _
  refine ⟨_, rfl, ⟨hrep, h.live, h.nodup⟩, .store hp (fun y => Iff.rfl) (fun y hy hne => ?_) ?_
    (Function.update_self ..) fun j _ hj => Function.update_of_ne (by omega) _ _⟩
  · obtain ⟨b, hb, hbk, rfl⟩ := h.live y hy
    refine h.rep.same hrep hb hb hbk hy fun i h1 h2 => Function.update_of_ne ?_ _ _
    have hbm : b ≠ m := fun he => hne (he ▸ rfl)
    have hb1 := b.addr_lt_payload
    have hm1 := m.addr_lt_payload
    obtain hapart | hapart := h.rep.tiles.disjoint hb hm hbm <;> omega
  · exact (Rep.sizeOf (w := { w with heap := { w.heap with mem := _ } }) hrep hm).trans
      (h.rep.sizeOf hm).symm

/-- **One event** serves what it asks for. -/
theorem Owned.exec_serves (h : Owned os w B) (he : Legal w e) :
    Outcome (fun w' => (∃ B', Owned os w' B') ∧
        Arrays.Serves w.view (answer os w e).1 (answer os w e).2 w'.view) (fun _ => False)
      (exec os w e) := by
  cases e with
  | smalloc size =>
      obtain ⟨x, B', hrun, howned, hserves⟩ := h.smalloc_serves (.smalloc size) size
      rw [exec, hrun]
      refine ⟨⟨B', howned⟩, ?_⟩
      simpa only [answer, hrun, pointer, Event.request] using hserves
  | scalloc num size =>
      obtain ⟨x, B', hrun, howned, hserves⟩ := h.scalloc_serves (.scalloc num size) num size
      rw [exec, hrun]
      refine ⟨⟨B', howned⟩, ?_⟩
      simpa only [answer, hrun, pointer, Event.request] using hserves
  | srealloc oldp size =>
      obtain rfl | hp := he
      · by_cases hr : size = 0 ∨ maxRequest < size
        · obtain ⟨howned, hsame⟩ := h.refused (.srealloc 0 size) (w.live.erase 0)
          have hrun : srealloc os w.heap 0 size = .ok (0, w.heap) := by
            rw [srealloc, if_pos hr]
            rfl
          rw [exec, hrun]
          refine ⟨⟨B, howned⟩, ?_⟩
          simp only [answer, hrun, pointer, Event.request]
          exact .kept (fun y => Iff.rfl) hsame
        · obtain ⟨x, B', hsm, howned, hserves⟩ := h.smalloc_serves (.srealloc 0 size) size
          have hrun : srealloc os w.heap 0 size = .ok x := by
            rw [srealloc, if_neg hr, if_pos rfl, hsm]
          rw [exec, hrun, h.erase_zero]
          refine ⟨⟨B', howned⟩, ?_⟩
          simp only [answer, hrun, pointer, Event.request]
          exact hserves.resizes h.zero_notMem le_rfl
      · obtain ⟨x, B', hrun, howned, hserves⟩ := h.srealloc_serves (.srealloc oldp size) hp size
        rw [exec, hrun]
        refine ⟨⟨B', howned⟩, ?_⟩
        simpa only [answer, hrun, pointer, Event.request] using hserves
  | sfree p =>
      obtain ⟨w', B', hrun, howned, hserves⟩ := h.sfree_serves he
      rw [hrun]
      exact ⟨⟨B', howned⟩, hserves⟩
  | write p off byte =>
      obtain ⟨w', hrun, howned, hserves⟩ := h.write_serves he
      rw [hrun]
      exact ⟨⟨B, howned⟩, hserves⟩

end Serves

/-! ## Runs -/

/-- What the events of a run asked for, and the pointers they got. -/
def calls (os : Os) (mem : Mem) (es : List Event) : List (Arrays.Op UInt8 × Nat) :=
  transcript (exec os) (answer os) (.init os mem) es

/-- **First fit keeps the arrays**, whatever `sbrk` refuses: every run of a
client that uses live pointers and stays inside its blocks ends, and then each
byte that was ever set is in the heap as it was set last. -/
theorem first_fit_is_memory (os : Os) (mem : Mem) (es : List Event)
    (h : Throughout os mem Legal es) :
    ∃ w, run os mem es = .ok w ∧ ∃ a, runFrom Arrays.call .init (calls os mem es) = .ok a ∧
      Arrays.Shows w.view a :=
  Outcome.exists_ok (Arrays.Shows.runs World.view (I := fun w => ∃ B, Owned os w B)
    (fun _ _ hinv he => hinv.elim fun _ hB => hB.exec_serves he)
    ⟨[], .init os mem⟩ (.init rfl) h)

/-- The payload of the second block is refused; the first one is written to,
moved and cleared again by its next owner. -/
def reusingEvents : List Event :=
  [.smalloc 100, .write 4128 7 255, .smalloc 50, .srealloc 4128 200, .scalloc 5 10]

theorem first_fit_is_memory_reusing : ∃ w, run refusesFourth (fun _ => 3) reusingEvents = .ok w ∧
    ∃ a, runFrom Arrays.call .init (calls refusesFourth (fun _ => 3) reusingEvents) = .ok a ∧
      Arrays.Shows w.view a :=
  first_fit_is_memory refusesFourth (fun _ => 3) reusingEvents (by decide +kernel)

end OsAllHw.Malloc2
