import OsAllHw.Lib.FirstFit
import OsAllHw.Malloc2.Runs

/-!
# `malloc_2.cpp` is a first-fit allocator

For a client that only uses live pointers, and an `sbrk` that never fails,
each call is a step of the allocator of `Lib.FirstFit` with the same
result. The blocks of memory are the abstract blocks: `Abstracts` reads the
abstract state off the block list, `Sim` adds what a run needs to go on.
-/

namespace OsAllHw.Malloc2

open Lib
open OsAllHw.Malloc (Os sizeT)

/-- The abstract call, and none for a client write. -/
def Event.op : Event → Option FirstFit.Op
  | .smalloc size => some (.alloc size)
  | .scalloc num size => some (.alloc (sizeT (num * size)))
  | .srealloc oldp size => some (.resize oldp size)
  | .sfree p => some (.release p)
  | .write _ _ _ => none

/-- The log in abstract terms. -/
def World.calls (w : World) : List (FirstFit.Op × Nat) :=
  w.log.filterMap fun c => c.1.op.map fun op => (op, c.2)

/-- Pointer arguments are `NULL` or live, writes stay inside a live block. -/
def Legal (w : World) : Event → Prop
  | .smalloc _ => True
  | .scalloc _ _ => True
  | .srealloc oldp _ => oldp = 0 ∨ oldp ∈ w.live
  | .sfree p => p = 0 ∨ p ∈ w.live
  | .write p off _ => p ∈ w.live ∧ off < w.sizeOf p

instance (w : World) : (e : Event) → Decidable (Legal w e)
  | .smalloc _ => .isTrue trivial
  | .scalloc _ _ => .isTrue trivial
  | .srealloc _ _ => inferInstanceAs (Decidable (_ ∨ _))
  | .sfree _ => inferInstanceAs (Decidable (_ ∨ _))
  | .write _ _ _ => inferInstanceAs (Decidable (_ ∧ _))

/-! ## The abstraction -/

/-- The abstract state of a block list. -/
structure Abstracts (B : List Block) (brk : Nat) (a : FirstFit.State) : Prop where
  blocks : ∀ x, x ∈ a.blocks ↔ x ∈ heads B
  size : ∀ b ∈ B, a.size b.addr = b.size
  free : ∀ x, x ∈ a.free ↔ x ∈ freeAddrs B
  brk : a.brk = brk

section Abstracts

variable {B B' : List Block} {L R : List Block} {b m : Block} {a : FirstFit.State}
  {lo brk brk' r q : Nat}

theorem Tiles.unique {hi hi' : Nat} (h : Tiles lo B hi) (h' : Tiles lo B hi') : hi = hi' :=
  h.room_le.symm.trans h'.room_le

theorem Tiles.notMem_freeAddrs (h : Tiles lo B brk) (hb : b ∈ B) (hk : b.kind ≠ .free) :
    b.addr ∉ freeAddrs B := by
  intro hx
  obtain ⟨c, hc, hck, he⟩ := mem_freeAddrs.mp hx
  exact hk (h.eq_of_addr hc hb he ▸ hck)

/-- **`smalloc` simulates** an abstract allocation. -/
theorem Allocates.simulates (h : Allocates r brk B B' q) (hq : q ≠ 0) (ha : Abstracts B brk a)
    (hB : Tiles lo B brk) (hB' : Tiles lo B' brk') :
    ∃ b a', FirstFit.Alloc metaSize a r b a' ∧ q = b + metaSize ∧ Abstracts B' brk' a' := by
  cases h with
  | reuse L R b hb hr hfirst =>
      have hbmem : b ∈ L ++ b :: R := by simp
      have hbfree : b.addr ∈ a.free := (ha.free _).mpr (mem_freeAddrs.mpr ⟨b, hbmem, hb, rfl⟩)
      have hbrk : brk = brk' := by
        refine (hB.replace (c := ⟨b.addr, b.size, .used⟩) rfl ?_).unique hB'
        rw [b.fin_used (by simp [hb]), Block.fin_used _ (by simp)]
        rfl
      refine ⟨b.addr, _, .reuse b.addr hbfree (by rw [ha.size b hbmem]; exact hr) ?_, rfl, ?_⟩
      · -- the blocks passed over are free but too small
        intro c hc hcr
        obtain ⟨d, hd, hdk, rfl⟩ := mem_freeAddrs.mp ((ha.free c).mp hc)
        rw [ha.size d hd] at hcr
        rcases List.mem_append.mp hd with hdL | hdR
        · exact absurd (hfirst d hdL hdk) (Nat.not_lt.mpr hcr)
        · rcases List.mem_cons.mp hdR with rfl | hdR
          · exact le_rfl
          · have := (List.pairwise_cons.mp (List.pairwise_append.mp hB.pairwise).2.1).1 d hdR
            exact (b.addr_lt_fin.trans_le this).le
      · refine ⟨fun x => ?_, ?_, fun x => ?_, ha.brk.trans hbrk⟩
        · rw [ha.blocks, heads_replace (b := b) (c := ⟨b.addr, b.size, .used⟩) rfl]
        · intro d hd
          rcases List.mem_append.mp hd with hd | hd
          · exact ha.size d (by simp [hd])
          · rcases List.mem_cons.mp hd with rfl | hd
            · exact ha.size b hbmem
            · exact ha.size d (by simp [hd])
        · have hnd := hB.freeAddrs_sorted.imp Nat.ne_of_lt
          rw [freeAddrs_append, freeAddrs_cons_free hb] at hnd
          have hnot := (List.nodup_cons.mp (List.nodup_middle.mp hnd)).1
          rw [Finset.mem_erase, ha.free, freeAddrs_append, freeAddrs_cons_free hb, freeAddrs_append,
            freeAddrs_cons (by simp)]
          simp only [List.mem_append, List.mem_cons] at hnot ⊢
          constructor
          · rintro ⟨hne, h | rfl | h⟩
            · exact .inl h
            · exact absurd rfl hne
            · exact .inr h
          · intro h
            refine ⟨fun he => hnot (he ▸ h), h.imp_right Or.inr⟩
  | fresh B hnone =>
      have hbrk : brk + metaSize + r = brk' := (hB.concat (b := ⟨brk, r, .used⟩) rfl).unique hB'
      have hnew : brk ∉ heads B := by
        rintro ⟨b, hb, he⟩
        have := (hB.bounds hb).2
        have := b.addr_lt_fin
        omega
      obtain rfl := ha.brk
      refine ⟨a.brk, _, .extend ?_, rfl, ?_⟩
      · intro c hc
        obtain ⟨d, hd, hdk, rfl⟩ := mem_freeAddrs.mp ((ha.free c).mp hc)
        rw [ha.size d hd]
        exact hnone d hd hdk
      · refine ⟨fun x => ?_, ?_, fun x => ?_, hbrk⟩
        · rw [Finset.mem_insert, ha.blocks]
          constructor
          · rintro (rfl | ⟨b, hb, rfl⟩)
            · exact ⟨⟨a.brk, r, .used⟩, by simp, rfl⟩
            · exact ⟨b, List.mem_append_left _ hb, rfl⟩
          · rintro ⟨b, hb, rfl⟩
            rcases List.mem_append.mp hb with hb | hb
            · exact .inr (mem_heads hb)
            · rw [List.mem_singleton.mp hb]
              exact .inl rfl
        · intro d hd
          rcases List.mem_append.mp hd with hd | hd
          · have hne : d.addr ≠ a.brk := fun he => hnew (he ▸ mem_heads hd)
            exact (Function.update_of_ne hne _ _).trans (ha.size d hd)
          · rw [List.mem_singleton.mp hd]
            exact Function.update_self _ _ _
        · rw [ha.free, freeAddrs_append, freeAddrs_cons (by simp)]
          simp [freeAddrs]
  | noHeader B hnone => exact absurd rfl hq
  | noPayload B hnone => exact absurd rfl hq

/-- **`sfree` simulates** an abstract release. -/
theorem Abstracts.release (ha : Abstracts (L ++ m :: R) brk a) (hm : m.kind = .used) :
    Abstracts (L ++ ⟨m.addr, m.size, .free⟩ :: R) brk { a with free := insert m.addr a.free } := by
  refine ⟨fun x => ?_, ?_, fun x => ?_, ha.brk⟩
  · rw [ha.blocks, heads_replace (b := m) (c := ⟨m.addr, m.size, .free⟩) rfl]
  · intro d hd
    rcases List.mem_append.mp hd with hd | hd
    · exact ha.size d (by simp [hd])
    · rcases List.mem_cons.mp hd with rfl | hd
      · exact ha.size m (by simp)
      · exact ha.size d (by simp [hd])
  · rw [Finset.mem_insert, ha.free, freeAddrs_append, freeAddrs_cons (by simp [hm]),
      freeAddrs_append, freeAddrs_cons_free rfl]
    simp only [List.mem_append, List.mem_cons]
    exact or_left_comm

end Abstracts

/-! ## One call -/

/-- The concrete blocks, without orphans, and the client's pointers to those in use. -/
structure Sim (os : Os) (w : World) (B : List Block) (a : FirstFit.State) : Prop where
  rep : Rep os w.heap B
  whole : ∀ b ∈ B, b.kind ≠ .orphan
  live : ∀ p ∈ w.live, ∃ b ∈ B, b.kind = .used ∧ b.payload = p
  nodup : w.live.Nodup
  abs : Abstracts B w.heap.kernel.brk a

/-- What event `e` is in abstract terms: a logged call that is a step, or nothing. -/
def Follows (w : World) (e : Event) (a : FirstFit.State) (w' : World) (a' : FirstFit.State) :
    Prop :=
  match e.op with
  | none => w'.calls = w.calls ∧ a' = a
  | some op => ∃ q, w'.calls = (op, q) :: w.calls ∧ FirstFit.Step metaSize maxRequest a op q a'

/-- `srealloc` returned a block with the old contents. -/
def KeepsContents (w : World) (e : Event) (w' : World) : Prop :=
  match e with
  | .srealloc oldp size => oldp ≠ 0 → ∀ q, w'.log.head? = some (e, q) → q ≠ 0 →
      ∀ i < min size (w.sizeOf oldp), w'.heap.mem (q + i) = w.heap.mem (oldp + i)
  | _ => True

section Sim

variable {os : Os} {w : World} {B B' : List Block} {b m : Block} {a : FirstFit.State} {e : Event}
  {r brk q lo : Nat}

theorem Allocates.whole (h : Allocates r brk B B' q) (hq : q ≠ 0)
    (hB : ∀ b ∈ B, b.kind ≠ .orphan) : ∀ b ∈ B', b.kind ≠ .orphan := by
  cases h with
  | reuse L R c hc hr hfirst =>
      intro b hb
      rcases List.mem_append.mp hb with hb | hb
      · exact hB b (by simp [hb])
      · rcases List.mem_cons.mp hb with rfl | hb
        · simp
        · exact hB b (by simp [hb])
  | fresh B hnone =>
      intro b hb
      rcases List.mem_append.mp hb with hb | hb
      · exact hB b hb
      · rw [List.mem_singleton.mp hb]
        simp
  | noHeader B hnone => exact absurd rfl hq
  | noPayload B hnone => exact absurd rfl hq

/-- Blocks in use stay. -/
theorem Allocates.mem_used (h : Allocates r brk B B' q) (hb : b ∈ B) (hk : b.kind = .used) :
    b ∈ B' := by
  cases h with
  | reuse L R c hc hr hfirst =>
      have hbc : b ≠ c := fun he => by
        rw [he, hc] at hk
        cases hk
      simp only [List.mem_append, List.mem_cons, hbc, false_or] at hb ⊢
      exact hb.imp_right Or.inr
  | fresh B hnone => exact List.mem_append_left _ hb
  | noHeader B hnone => exact hb
  | noPayload B hnone => exact List.mem_append_left _ hb

/-- The pointer returned was not in use. -/
theorem Allocates.notMem_used (h : Allocates r brk B B' q) (hq : q ≠ 0) (hB : Tiles lo B brk)
    (hb : b ∈ B) (hk : b.kind = .used) : b.payload ≠ q := by
  cases h with
  | reuse L R c hc hr hfirst =>
      intro he
      rw [hB.eq_of_addr hb (by simp) (payload_inj.mp he), hc] at hk
      cases hk
  | fresh B hnone =>
      intro he
      have hbrk : b.addr = brk := Nat.add_right_cancel he
      have := (hB.bounds hb).2
      have := b.addr_lt_fin
      omega
  | noHeader B hnone => exact absurd rfl hq
  | noPayload B hnone => exact absurd rfl hq

/-- A new pointer for the client. -/
theorem Sim.give {x : Nat × Heap} (h : Sim os w B a)
    (halloc : Allocates r w.heap.kernel.brk B B' x.1) (hrep : Rep os x.2 B') (hx : x.1 ≠ 0) :
    ∃ b a', FirstFit.Alloc metaSize a r b a' ∧ x.1 = b + metaSize ∧
      Sim os (w.give e w.live x) B' a' := by
  obtain ⟨b, a', hstep, hb, habs⟩ := halloc.simulates hx h.abs h.rep.tiles hrep.tiles
  refine ⟨b, a', hstep, hb, hrep, halloc.whole hx h.whole, ?_, ?_, habs⟩
  · simp only [World.give, if_neg hx]
    intro p hp
    rcases List.mem_cons.mp hp with rfl | hp
    · obtain ⟨n, hn, hk, hnp, -⟩ := halloc.exists_block hx
      exact ⟨n, hn, hk, hnp⟩
    · obtain ⟨c, hc, hk, rfl⟩ := h.live p hp
      exact ⟨c, halloc.mem_used hc hk, hk, rfl⟩
  · simp only [World.give, if_neg hx]
    refine List.nodup_cons.mpr ⟨fun hp => ?_, h.nodup⟩
    obtain ⟨c, hc, hk, he⟩ := h.live _ hp
    exact halloc.notMem_used hx h.rep.tiles hc hk he

/-- Nothing but the log changed. -/
theorem Sim.refuse (h : Sim os w B a) (e : Event) (rest : List Nat) :
    Sim os (w.give e rest (0, w.heap)) B a := by
  refine ⟨h.rep, h.whole, ?_, ?_, h.abs⟩
  · simp only [World.give, if_true]
    exact h.live
  · simp only [World.give, if_true]
    exact h.nodup

theorem calls_give {op : FirstFit.Op} (he : e.op = some op) (rest : List Nat) (x : Nat × Heap) :
    (w.give e rest x).calls = (op, x.1) :: w.calls := by
  simp [World.calls, World.give, he]

/-- The outcome of one event, unless an `sbrk` was refused in it. -/
def Simulated (os : Os) (w : World) (e : Event) (a : FirstFit.State) (w' : World) : Prop :=
  w'.heap.kernel.sbrkFailures = w.heap.kernel.sbrkFailures →
    ∃ B' a', Follows w e a w' a' ∧ Sim os w' B' a' ∧ KeepsContents w e w'

/-- A request served by `smalloc`, by whatever name. -/
theorem Sim.served {x : Nat × Heap} {own : Set Nat} (h : Sim os w B a)
    (hop : e.op = some (.alloc r)) (h0 : r ≠ 0) (hmax : r ≤ maxRequest)
    (halloc : Allocates r w.heap.kernel.brk B B' x.1) (hans : Answers os own B B' w.heap x)
    (hkeeps : KeepsContents w e (w.give e w.live x)) :
    Simulated os w e a (w.give e w.live x) := by
  intro hfail
  have hfail' : x.2.kernel.sbrkFailures = w.heap.kernel.sbrkFailures := hfail
  have hx : x.1 ≠ 0 := fun hx => by
    have := hans.null hx
    omega
  obtain ⟨b, a', hstep, hb, hsim⟩ := h.give (e := e) halloc hans.rep hx
  refine ⟨B', a', ?_, hsim, hkeeps⟩
  rw [Follows, hop]
  exact ⟨x.1, calls_give hop _ _, hb ▸ .alloc r b a' h0 hmax hstep⟩

/-- A request that is refused for its size. -/
theorem Sim.refused (h : Sim os w B a) {op : FirstFit.Op} (hop : e.op = some op)
    (hstep : FirstFit.Step metaSize maxRequest a op 0 a) (rest : List Nat)
    (hkeeps : KeepsContents w e (w.give e rest (0, w.heap))) :
    Simulated os w e a (w.give e rest (0, w.heap)) := by
  intro _
  refine ⟨B, a, ?_, h.refuse e rest, hkeeps⟩
  rw [Follows, hop]
  exact ⟨0, calls_give hop _ _, hstep⟩

theorem Sim.exec_smalloc (h : Sim os w B a) (size : Nat) :
    ∃ w', exec os w (.smalloc size) = .ok w' ∧ Simulated os w (.smalloc size) a w' := by
  by_cases hr : size = 0 ∨ maxRequest < size
  · refine ⟨_, ?_, h.refused rfl (.refused size hr) w.live trivial⟩
    rw [exec, smalloc_refuses os w.heap hr]
    rfl
  · obtain ⟨x, B', hrun, halloc, hans⟩ := smalloc_spec (r := size) h.rep (by omega) (by omega)
    exact ⟨_, by rw [exec, hrun]; rfl, h.served rfl (by omega) (by omega) halloc hans trivial⟩

theorem Sim.exec_scalloc (h : Sim os w B a) (num size : Nat) :
    ∃ w', exec os w (.scalloc num size) = .ok w' ∧ Simulated os w (.scalloc num size) a w' := by
  by_cases hr : sizeT (num * size) = 0 ∨ maxRequest < sizeT (num * size)
  · refine ⟨_, ?_, h.refused rfl (.refused _ hr) w.live trivial⟩
    rw [exec, scalloc, smalloc_refuses os w.heap hr]
    rfl
  · obtain ⟨x, B', hrun, halloc, hans, -⟩ :=
      scalloc_spec num size h.rep (by omega) (by omega)
    exact ⟨_, by rw [exec, hrun]; rfl, h.served rfl (by omega) (by omega) halloc hans trivial⟩

theorem Sim.zero_notMem_live (h : Sim os w B a) : 0 ∉ w.live := fun h0 => by
  obtain ⟨b, -, -, hb⟩ := h.live 0 h0
  exact Nat.succ_ne_zero _ hb

/-- `srealloc` without an old block. -/
theorem Sim.exec_srealloc_null (h : Sim os w B a) (size : Nat)
    (hr : ¬(size = 0 ∨ maxRequest < size)) :
    ∃ w', exec os w (.srealloc 0 size) = .ok w' ∧ Simulated os w (.srealloc 0 size) a w' := by
  obtain ⟨x, B', hrun, halloc, hans⟩ := smalloc_spec (r := size) h.rep (by omega) (by omega)
  refine ⟨w.give (.srealloc 0 size) w.live x, ?_, fun hfail => ?_⟩
  · rw [exec, srealloc, if_neg hr, if_pos rfl, hrun, List.erase_of_not_mem h.zero_notMem_live]
    rfl
  · have hfail' : x.2.kernel.sbrkFailures = w.heap.kernel.sbrkFailures := hfail
    have hx : x.1 ≠ 0 := fun hx => by
      have := hans.null hx
      omega
    obtain ⟨b, a', hstep, hb, hsim⟩ := h.give (e := .srealloc 0 size) halloc hans.rep hx
    exact ⟨B', a', ⟨x.1, calls_give rfl _ _,
      hb ▸ .resizeNull size b a' (by omega) (by omega) hstep⟩, hsim, fun h0 => absurd rfl h0⟩

/-- `srealloc` of a live block, once it is known where it went. -/
theorem Sim.reallocated {x : Nat × Heap} (h : Sim os w B a) (hm : m ∈ B) (hk : m.kind = .used)
    (h0 : r ≠ 0) (hmax : r ≤ maxRequest) (hx : x.1 ≠ 0)
    (hre : Reallocates r w.heap.kernel.brk B m B' x.1) (hrep : Rep os x.2 B') :
    ∃ a', FirstFit.Step metaSize maxRequest a (.resize m.payload r) x.1 a' ∧
      Sim os (w.give e (w.live.erase m.payload) x) B' a' := by
  have hmblock : m.addr ∈ a.blocks := (h.abs.blocks _).mpr (mem_heads hm)
  have hmused : m.addr ∉ a.free := fun hin =>
    h.rep.tiles.notMem_freeAddrs hm (by simp [hk]) ((h.abs.free _).mp hin)
  have hnd := h.nodup.erase m.payload
  -- the other live pointers
  have hothers : ∀ p ∈ w.live.erase m.payload, ∃ b ∈ B, b.kind = .used ∧ b.payload = p ∧ b ≠ m := by
    intro p hp
    obtain ⟨hne, hp⟩ := h.nodup.mem_erase_iff.mp hp
    obtain ⟨b, hb, hbk, rfl⟩ := h.live p hp
    exact ⟨b, hb, hbk, rfl, fun he => hne (he ▸ rfl)⟩
  obtain ⟨q, s⟩ := x
  dsimp only at hx hre hrep ⊢
  cases hre with
  | keep hr =>
      have hbrk := h.rep.tiles.unique hrep.tiles
      refine ⟨a, .keep m.addr r h0 hmax hmblock hmused (by rw [h.abs.size m hm]; exact hr),
        hrep, h.whole, ?_, ?_, ?_⟩
      · simp only [World.give, if_neg hx]
        intro p hp
        rcases List.mem_cons.mp hp with rfl | hp
        · exact ⟨m, hm, hk, rfl⟩
        · obtain ⟨b, hb, hbk, rfl, -⟩ := hothers p hp
          exact ⟨b, hb, hbk, rfl⟩
      · simp only [World.give, if_neg hx]
        exact List.nodup_cons.mpr ⟨h.nodup.not_mem_erase, hnd⟩
      · exact ⟨h.abs.blocks, h.abs.size, h.abs.free, h.abs.brk.trans hbrk⟩
  | null B' hlt halloc => exact absurd rfl hx
  | moveFree B' q hlt hq halloc hm' =>
      rw [hk] at hm'
      cases hm'
  | move L R q hlt hq halloc hm' =>
      have htiles : Tiles os.brk0 (L ++ m :: R) s.kernel.brk := by
        refine hrep.tiles.replace (b := ⟨m.addr, m.size, .free⟩) rfl ?_
        rw [m.fin_used (by simp [hk]), Block.fin_used _ (by simp)]
        rfl
      obtain ⟨c, a', hstep, hc, habs⟩ := halloc.simulates hq h.abs h.rep.tiles htiles
      have hqm : q ≠ m.payload := (halloc.notMem_used hq h.rep.tiles hm hk).symm
      have hmem : ∀ b ∈ L ++ m :: R, b ≠ m → b ∈ L ++ ⟨m.addr, m.size, .free⟩ :: R := by
        intro b hb hbm
        simp only [List.mem_append, List.mem_cons, hbm, false_or] at hb ⊢
        exact hb.imp_right Or.inr
      refine ⟨{ a' with free := insert m.addr a'.free }, ?_, hrep, ?_, ?_, ?_, habs.release hk⟩
      · exact hc ▸ .move m.addr c r a' h0 hmax hmblock hmused (by rw [h.abs.size m hm]; exact hlt)
          hstep
      · have hwhole := halloc.whole hq h.whole
        intro b hb
        rcases List.mem_append.mp hb with hb | hb
        · exact hwhole b (by simp [hb])
        · rcases List.mem_cons.mp hb with rfl | hb
          · simp
          · exact hwhole b (by simp [hb])
      · simp only [World.give, if_neg hx]
        intro p hp
        rcases List.mem_cons.mp hp with rfl | hp
        · obtain ⟨n, hn, hnk, rfl, -⟩ := halloc.exists_block hq
          exact ⟨n, hmem n hn fun he => hqm (he ▸ rfl), hnk, rfl⟩
        · obtain ⟨b, hb, hbk, rfl, hbm⟩ := hothers p hp
          exact ⟨b, hmem b (halloc.mem_used hb hbk) hbm, hbk, rfl⟩
      · simp only [World.give, if_neg hx]
        refine List.nodup_cons.mpr ⟨fun hp => ?_, hnd⟩
        obtain ⟨b, hb, hbk, he, -⟩ := hothers q hp
        exact halloc.notMem_used hq h.rep.tiles hb hbk he

theorem Sim.sizeOf (h : Sim os w B a) (hm : m ∈ B) : w.sizeOf m.payload = m.size := by
  rw [World.sizeOf, Block.payload, Nat.add_sub_cancel]
  exact h.rep.size m hm

theorem Sim.exec_srealloc (h : Sim os w B a) {oldp size : Nat}
    (hp : oldp = 0 ∨ oldp ∈ w.live) :
    ∃ w', exec os w (.srealloc oldp size) = .ok w' ∧ Simulated os w (.srealloc oldp size) a w' := by
  by_cases hr : size = 0 ∨ maxRequest < size
  · refine ⟨_, ?_, h.refused rfl (.resizeRefused oldp size hr) (w.live.erase oldp) ?_⟩
    · rw [exec, srealloc, if_pos hr]
      rfl
    · intro _ q hq hq0
      simp only [World.give, List.head?_cons, Option.some.injEq, Prod.mk.injEq, true_and] at hq
      exact absurd hq.symm hq0
  rcases hp with rfl | hp
  · exact h.exec_srealloc_null size hr
  · obtain ⟨m, hm, hk, rfl⟩ := h.live oldp hp
    obtain ⟨x, B', hrun, hre, hans, hkept⟩ :=
      srealloc_spec (r := size) h.rep hm (by simp [hk]) (by omega) (by omega)
    refine ⟨_, by rw [exec, hrun]; rfl, fun hfail => ?_⟩
    have hfail' : x.2.kernel.sbrkFailures = w.heap.kernel.sbrkFailures := hfail
    have hx : x.1 ≠ 0 := fun hx => by
      have := hans.null hx
      omega
    obtain ⟨a', hstep, hsim⟩ := h.reallocated (e := .srealloc m.payload size) hm hk (by omega)
      (by omega) hx hre hans.rep
    refine ⟨B', a', ⟨x.1, calls_give rfl _ _, hstep⟩, hsim, fun _ q hq _ i hi => ?_⟩
    simp only [World.give, List.head?_cons, Option.some.injEq, Prod.mk.injEq, true_and] at hq
    rw [h.sizeOf hm] at hi
    exact hq ▸ hkept hx i hi

theorem Sim.exec_sfree (h : Sim os w B a) {p : Nat} (hp : p = 0 ∨ p ∈ w.live) :
    ∃ w', exec os w (.sfree p) = .ok w' ∧ Simulated os w (.sfree p) a w' := by
  rcases hp with rfl | hp
  · refine ⟨{ w with live := w.live.erase 0, log := (.sfree 0, 0) :: w.log },
      by rw [exec, sfree, if_pos rfl]; rfl, fun _ => ⟨B, a, ⟨0, rfl, .releaseNull⟩, ?_, trivial⟩⟩
    rw [List.erase_of_not_mem h.zero_notMem_live]
    exact ⟨h.rep, h.whole, h.live, h.nodup, h.abs⟩
  · obtain ⟨m, hm, hk, rfl⟩ := h.live p hp
    obtain ⟨s', B', hrun, hrep, hkernel, -, hB⟩ := sfree_spec h.rep hm (by simp [hk])
    refine ⟨_, by rw [exec, hrun]; rfl, fun _ => ?_⟩
    rcases hB with ⟨hfree, -⟩ | ⟨-, L, R, rfl, rfl⟩
    · rw [hk] at hfree
      cases hfree
    have hmused : m.addr ∉ a.free := fun hin =>
      h.rep.tiles.notMem_freeAddrs hm (by simp [hk]) ((h.abs.free _).mp hin)
    have habs := h.abs.release hk
    rw [← hkernel] at habs
    refine ⟨_, _, ⟨0, rfl, .release m.addr ((h.abs.blocks _).mpr (mem_heads hm)) hmused⟩,
      ⟨hrep, ?_, ?_, h.nodup.erase _, habs⟩, trivial⟩
    · intro b hb
      rcases List.mem_append.mp hb with hb | hb
      · exact h.whole b (by simp [hb])
      · rcases List.mem_cons.mp hb with rfl | hb
        · simp
        · exact h.whole b (by simp [hb])
    · -- the other live pointers are to other blocks
      intro p hp
      obtain ⟨hne, hp⟩ := h.nodup.mem_erase_iff.mp hp
      obtain ⟨b, hb, hbk, rfl⟩ := h.live p hp
      have hbm : b ≠ m := fun he => hne (he ▸ rfl)
      refine ⟨b, ?_, hbk, rfl⟩
      simp only [List.mem_append, List.mem_cons, hbm, false_or] at hb ⊢
      exact hb.imp_right Or.inr

/-- **One event** of a client that uses live pointers only. -/
theorem Sim.exec (h : Sim os w B a) (he : Legal w e) :
    ∃ w', exec os w e = .ok w' ∧ Simulated os w e a w' := by
  cases e with
  | smalloc size => exact h.exec_smalloc size
  | scalloc num size => exact h.exec_scalloc num size
  | srealloc oldp size => exact h.exec_srealloc he
  | sfree p => exact h.exec_sfree he
  | write p off byte =>
      obtain ⟨m, hm, hk, rfl⟩ := h.live p he.1
      have hoff := he.2
      rw [h.sizeOf hm] at hoff
      refine ⟨_, rfl, fun _ => ⟨B, a, ⟨rfl, rfl⟩, ⟨?_, h.whole, h.live, h.nodup, h.abs⟩, trivial⟩⟩
      refine h.rep.writeIn hm fun x hx => ?_
      have hfin := m.fin_used (by simp [hk])
      exact Function.update_of_ne (by omega) _ _

end Sim

/-! ## Runs -/

/-- No `sbrk` is refused in event `e`. -/
def Granted (os : Os) (w : World) (e : Event) : Prop :=
  Outcome (fun w' : World => w'.heap.kernel.sbrkFailures = w.heap.kernel.sbrkFailures)
    (fun _ => True) (exec os w e)

instance (os : Os) (w : World) (e : Event) : Decidable (Granted os w e) :=
  inferInstanceAs (Decidable (Outcome _ _ _))

/-- What memory and the counters say of the abstract state. -/
structure Agrees (w : World) (a : FirstFit.State) : Prop where
  brk : a.brk = w.heap.kernel.brk
  size : ∀ b ∈ a.blocks, w.heap.get .size b = a.size b
  free : ∀ b ∈ a.blocks, w.heap.isFree b = true ↔ b ∈ a.free
  live : ∀ p ∈ w.live, ∃ b ∈ a.blocks, b ∉ a.free ∧ b + metaSize = p
  numAllocatedBlocks : numAllocatedBlocks w.heap = a.blocks.card
  numAllocatedBytes : numAllocatedBytes w.heap = ∑ b ∈ a.blocks, a.size b

section Runs

variable {os : Os} {mem : Mem} {w : World} {B : List Block} {a : FirstFit.State} {e : Event}

theorem Sim.init (os : Os) (mem : Mem) : Sim os (.init os mem) [] (.init os.brk0) where
  rep := (Inv.init os mem).rep
  whole := fun b hb => absurd hb List.not_mem_nil
  live := fun p hp => absurd hp List.not_mem_nil
  nodup := List.nodup_nil
  abs := by
    refine ⟨fun x => ?_, fun b hb => absurd hb List.not_mem_nil, fun x => ?_, rfl⟩
    · simp [FirstFit.State.init, heads]
    · simp [FirstFit.State.init, freeAddrs]

/-- Without orphans every recorded byte is there. -/
theorem totalSize_eq (hB : ∀ b ∈ B, b.kind ≠ .orphan) : totalSize B = (B.map Block.room).sum := by
  rw [totalSize]
  exact congrArg List.sum (List.map_congr_left fun b hb => (b.room_eq (hB b hb)).symm)

theorem Sim.agrees (h : Sim os w B a) : Agrees w a := by
  have hblocks : a.blocks = (B.map Block.addr).toFinset := by
    ext x
    rw [h.abs.blocks, List.mem_toFinset, List.mem_map]
    rfl
  have hnd : (B.map Block.addr).Nodup := h.rep.tiles.addr_sorted.imp Nat.ne_of_lt
  refine ⟨h.abs.brk, fun x hx => ?_, fun x hx => ?_, fun p hp => ?_, ?_, ?_⟩
  · obtain ⟨b, hb, rfl⟩ := (h.abs.blocks x).mp hx
    rw [h.rep.size b hb, h.abs.size b hb]
  · obtain ⟨b, hb, rfl⟩ := (h.abs.blocks x).mp hx
    rw [h.rep.flag b hb, h.abs.free, mem_freeAddrs, Block.isFree, beq_iff_eq]
    refine ⟨fun hk => ⟨b, hb, hk, rfl⟩, ?_⟩
    rintro ⟨c, hc, hk, he⟩
    exact h.rep.tiles.eq_of_addr hc hb he ▸ hk
  · obtain ⟨b, hb, hk, rfl⟩ := h.live p hp
    refine ⟨b.addr, (h.abs.blocks _).mpr (mem_heads hb), fun hin => ?_, rfl⟩
    exact h.rep.tiles.notMem_freeAddrs hb (by simp [hk]) ((h.abs.free _).mp hin)
  · rw [numAllocatedBlocks, h.rep.numAllocatedBlocks, hblocks, List.toFinset_card_of_nodup hnd,
      List.length_map]
  · -- the total does not wrap: the blocks are all in the segment
    have hlt : totalSize B < 2 ^ 64 := by
      have h1 := h.rep.tiles.room_le
      have h2 := h.rep.brk_lt
      rw [totalSize_eq h.whole]
      omega
    rw [numAllocatedBytes, h.rep.numAllocatedBytes, OsAllHw.Malloc.sizeT_of_lt hlt, hblocks,
      List.sum_toFinset _ hnd, List.map_map, totalSize]
    exact congrArg List.sum (List.map_congr_left fun b hb => (h.abs.size b hb).symm)

/-- What holds between the events of such a run. -/
theorem run_sim {es : List Event}
    (h : Throughout os mem (fun w e => Legal w e ∧ Granted os w e) es) :
    ∃ w, run os mem es = .ok w ∧ ∃ B a, Sim os w B a ∧
      FirstFit.Run metaSize maxRequest (.init os.brk0) w.calls a := by
  refine Outcome.exists_ok (runFrom_outcome (I := fun w => ∃ B a, Sim os w B a ∧
    FirstFit.Run metaSize maxRequest (.init os.brk0) w.calls a) ?_
    ⟨[], .init os.brk0, .init os mem, .nil⟩ h)
  rintro w e ⟨B, a, hsim, hrun⟩ ⟨he, hgranted⟩
  obtain ⟨w', hexec, hnext⟩ := hsim.exec he
  rw [Granted, hexec] at hgranted
  obtain ⟨B', a', hfollows, hsim', -⟩ := hnext hgranted
  rw [hexec]
  refine ⟨B', a', hsim', ?_⟩
  unfold Follows at hfollows
  split at hfollows
  · rw [hfollows.1, hfollows.2]
    exact hrun
  · obtain ⟨q, hcalls, hstep⟩ := hfollows
    rw [hcalls]
    exact hrun.cons hstep

/-- **`malloc_2.cpp` refines first fit.** After any run with live pointers
and no refused `sbrk`, the calls made are a run of the abstract allocator to
a state that memory and the counters agree with, and the next call is again
one of its steps. -/
theorem first_fit (os : Os) (mem : Mem) (es : List Event)
    (h : Throughout os mem (fun w e => Legal w e ∧ Granted os w e) es) :
    ∃ w, run os mem es = .ok w ∧ ∃ a,
      FirstFit.Run metaSize maxRequest (.init os.brk0) w.calls a ∧ a.Ok metaSize ∧ Agrees w a ∧
      ∀ e, Legal w e → ∃ w', exec os w e = .ok w' ∧ (Granted os w e →
        ∃ a', Follows w e a w' a' ∧ FirstFit.Grows a a' ∧ a'.Ok metaSize ∧ Agrees w' a' ∧
          KeepsContents w e w') := by
  obtain ⟨w, hrun, B, a, hsim, hcalls⟩ := run_sim h
  have hok := hcalls.ok (.init metaSize os.brk0) (by decide)
  refine ⟨w, hrun, a, hcalls, hok, hsim.agrees, fun e he => ?_⟩
  obtain ⟨w', hexec, hnext⟩ := hsim.exec he
  refine ⟨w', hexec, fun hgranted => ?_⟩
  rw [Granted, hexec] at hgranted
  obtain ⟨B', a', hfollows, hsim', hkeeps⟩ := hnext hgranted
  have hgrows : FirstFit.Grows a a' ∧ a'.Ok metaSize := by
    unfold Follows at hfollows
    split at hfollows
    · rw [hfollows.2]
      exact ⟨.refl a, hok⟩
    · obtain ⟨q, -, hstep⟩ := hfollows
      exact ⟨hstep.grows hok (by decide), hstep.ok hok (by decide)⟩
  exact ⟨a', hfollows, hgrows.1, hgrows.2, hsim'.agrees, hkeeps⟩

end Runs

/-- A kernel that grants every `sbrk`. -/
def grantsAll : Os := .refusing fun _ => false

/-- A released block is taken again, a grown one moves, its place is taken. -/
def movingEvents : List Event :=
  [.smalloc 100, .smalloc 50, .write 4128 3 7, .sfree 4128, .scalloc 6 10, .srealloc 4260 200,
    .smalloc 40, .srealloc 0 300]

theorem first_fit_moving : ∃ w, run grantsAll (fun _ => 0) movingEvents = .ok w ∧ ∃ a,
    FirstFit.Run metaSize maxRequest (.init grantsAll.brk0) w.calls a ∧ a.Ok metaSize ∧
    Agrees w a ∧ ∀ e, Legal w e → ∃ w', exec grantsAll w e = .ok w' ∧ (Granted grantsAll w e →
      ∃ a', Follows w e a w' a' ∧ FirstFit.Grows a a' ∧ a'.Ok metaSize ∧ Agrees w' a' ∧
        KeepsContents w e w') :=
  first_fit grantsAll (fun _ => 0) movingEvents (by decide +kernel)

end OsAllHw.Malloc2
