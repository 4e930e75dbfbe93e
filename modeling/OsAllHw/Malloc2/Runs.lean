import OsAllHw.Malloc2.Calls

/-!
# Runs of `malloc_2.cpp`

A client makes calls with pointers it once got, released or not, and writes
into the blocks behind them. `Inv` says which pointers those are: payloads
of blocks that are there. It carries the representation invariant through
every such run, whatever `sbrk` refuses, and with it the free list.
-/

namespace OsAllHw.Malloc2

open Lib
open OsAllHw.Malloc (Os Kernel sbrk sizeT subT)

inductive Event where
  | smalloc (size : Nat)
  | scalloc (num size : Nat)
  | srealloc (oldp size : Nat)
  | sfree (p : Nat)
  /-- The client stores a byte at `p + off`. -/
  | write (p off : Nat) (byte : UInt8)
  deriving DecidableEq

structure World where
  heap : Heap
  /-- Every pointer ever returned, released since or not. -/
  returned : List Nat
  /-- Pointers returned and not released since. -/
  live : List Nat
  /-- The calls made and the pointers they returned (0 for `sfree`), the
  latest first. -/
  log : List (Event × Nat)

/-- The process at start: the static variables are zero, memory is arbitrary. -/
def World.init (os : Os) (mem : Mem) : World where
  heap :=
    { mem := mem, freeList := 0, freeBlocksNum := 0, freeBytesNum := 0, numOfMetadatas := 0,
      numAllocatedBlocks := 0, numAllocatedBytes := 0, kernel := .init os }
  returned := []
  live := []
  log := []

/-- Call `e` returned `x`; `rest` are the pointers that stay live then. -/
def World.give (w : World) (e : Event) (rest : List Nat) (x : Nat × Heap) : World where
  heap := x.2
  returned := if x.1 = 0 then w.returned else x.1 :: w.returned
  live := if x.1 = 0 then w.live else x.1 :: rest
  log := (e, x.1) :: w.log

def exec (os : Os) (w : World) (e : Event) : Except Fault World :=
  match e with
  | .smalloc size => do return w.give e w.live (← smalloc os w.heap size)
  | .scalloc num size => do return w.give e w.live (← scalloc os w.heap num size)
  | .srealloc oldp size => do
      -- on failure the old block stays the client's
      return w.give e (w.live.erase oldp) (← srealloc os w.heap oldp size)
  | .sfree p => do
      let s ← sfree w.heap p
      return { w with heap := s, live := w.live.erase p, log := (e, 0) :: w.log }
  | .write p off byte =>
      .ok { w with heap := { w.heap with mem := Function.update w.heap.mem (p + off) byte } }

/-- `p->size` of the block whose payload is at `p`. -/
def World.sizeOf (w : World) (p : Nat) : Nat := w.heap.get .size (p - metaSize)

/-- Pointer arguments are `NULL` or were returned earlier, writes stay inside
the block. -/
def Known (w : World) : Event → Prop
  | .smalloc _ => True
  | .scalloc _ _ => True
  | .srealloc oldp _ => oldp = 0 ∨ oldp ∈ w.returned
  | .sfree p => p = 0 ∨ p ∈ w.returned
  | .write p off _ => p ∈ w.returned ∧ off < w.sizeOf p

instance (w : World) : (e : Event) → Decidable (Known w e)
  | .smalloc _ => .isTrue trivial
  | .scalloc _ _ => .isTrue trivial
  | .srealloc _ _ => inferInstanceAs (Decidable (_ ∨ _))
  | .sfree _ => inferInstanceAs (Decidable (_ ∨ _))
  | .write _ _ _ => inferInstanceAs (Decidable (_ ∧ _))

/-- A run from the start of the process. -/
def run (os : Os) (mem : Mem) (es : List Event) : Except Fault World :=
  runFrom (exec os) (.init os mem) es

/-- Every event of a run meets `P` in the state it is made in. -/
def Throughout (os : Os) (mem : Mem) (P : World → Event → Prop) (es : List Event) : Prop :=
  Along (exec os) P (.init os mem) es

instance (os : Os) (mem : Mem) (P : World → Event → Prop) [∀ w e, Decidable (P w e)]
    (es : List Event) : Decidable (Throughout os mem P es) :=
  inferInstanceAs (Decidable (Along _ _ _ _))

/-! ## The invariant -/

/-- Payloads of blocks that have one. -/
def payloads (B : List Block) : Set Nat := { p | ∃ b ∈ B, b.kind ≠ .orphan ∧ b.payload = p }

structure Inv (os : Os) (w : World) (B : List Block) : Prop where
  rep : Rep os w.heap B
  returned : ∀ p ∈ w.returned, p ∈ payloads B

section Inv

variable {os : Os} {mem : Mem} {w : World} {B B' : List Block} {b m : Block} {r brk q : Nat}

theorem Inv.init (os : Os) (mem : Mem) : Inv os (.init os mem) [] where
  rep := ⟨rfl, os.brk0_le, by simp, by simp, rfl, trivial, rfl, rfl, rfl, rfl, by
    have h0 : sizeT 0 = 0 := OsAllHw.Malloc.sizeT_of_lt (Nat.two_pow_pos 64)
    exact h0.symm⟩
  returned := fun p hp => absurd hp List.not_mem_nil

/-- Blocks stay where they are. -/
theorem Allocates.payloads_mono (h : Allocates r brk B B' q) : payloads B ⊆ payloads B' := by
  rintro p ⟨b, hb, hk, rfl⟩
  cases h with
  | reuse L R c hc hr hfirst =>
      by_cases hbc : b = c
      · subst hbc
        exact ⟨⟨b.addr, b.size, .used⟩, by simp, by simp, rfl⟩
      · refine ⟨b, ?_, hk, rfl⟩
        simp only [List.mem_append, List.mem_cons, hbc, false_or] at hb ⊢
        exact hb.imp_right Or.inr
  | fresh B hnone => exact ⟨b, List.mem_append_left _ hb, hk, rfl⟩
  | noHeader B hnone => exact ⟨b, hb, hk, rfl⟩
  | noPayload B hnone => exact ⟨b, List.mem_append_left _ hb, hk, rfl⟩

theorem payloads_release {L R : List Block} :
    payloads (L ++ m :: R) ⊆ payloads (L ++ ⟨m.addr, m.size, .free⟩ :: R) := by
  rintro p ⟨b, hb, hk, rfl⟩
  by_cases hbm : b = m
  · subst hbm
    exact ⟨⟨b.addr, b.size, .free⟩, by simp, by simp, rfl⟩
  · refine ⟨b, ?_, hk, rfl⟩
    simp only [List.mem_append, List.mem_cons, hbm, false_or] at hb ⊢
    exact hb.imp_right Or.inr

theorem Reallocates.payloads_mono (h : Reallocates r brk B m B' q) : payloads B ⊆ payloads B' := by
  cases h with
  | keep hr => exact subset_rfl
  | null B' hlt halloc => exact halloc.payloads_mono
  | move L R q hlt hq halloc hm => exact halloc.payloads_mono.trans payloads_release
  | moveFree B' q hlt hq halloc hm => exact halloc.payloads_mono

theorem Allocates.mem_payloads (h : Allocates r brk B B' q) (hq : q ≠ 0) : q ∈ payloads B' := by
  obtain ⟨n, hn, hk, rfl, -⟩ := h.exists_block hq
  exact ⟨n, hn, by simp [hk], rfl⟩

theorem Reallocates.mem_payloads (h : Reallocates r brk B m B' q) (hm : m ∈ B)
    (hk : m.kind ≠ .orphan) (hq : q ≠ 0) : q ∈ payloads B' := by
  cases h with
  | keep hr => exact ⟨m, hm, hk, rfl⟩
  | null B' hlt halloc => exact absurd rfl hq
  | move L R q hlt _ halloc hm => exact payloads_release (halloc.mem_payloads hq)
  | moveFree B' q hlt _ halloc hm => exact halloc.mem_payloads hq

/-- A pointer handed out. -/
theorem Inv.give {x : Nat × Heap} {e : Event} {rest : List Nat} (h : Inv os w B)
    (hrep : Rep os x.2 B') (hmono : payloads B ⊆ payloads B')
    (hx : x.1 ≠ 0 → x.1 ∈ payloads B') : Inv os (w.give e rest x) B' := by
  refine ⟨hrep, fun p hp => ?_⟩
  by_cases hx0 : x.1 = 0
  · simp only [World.give, if_pos hx0] at hp
    exact hmono (h.returned p hp)
  · simp only [World.give, if_neg hx0] at hp
    rcases List.mem_cons.mp hp with rfl | hp
    · exact hx hx0
    · exact hmono (h.returned p hp)

theorem Inv.smalloc (h : Inv os w B) (e : Event) (rest : List Nat) (r : Nat) :
    ∃ x B', smalloc os w.heap r = .ok x ∧ Inv os (w.give e rest x) B' := by
  by_cases hr : r = 0 ∨ maxRequest < r
  · exact ⟨_, B, smalloc_refuses os w.heap hr, h.give h.rep subset_rfl fun hx => absurd rfl hx⟩
  · obtain ⟨x, B', hrun, halloc, hans⟩ := smalloc_spec (r := r) h.rep (by omega) (by omega)
    exact ⟨x, B', hrun, h.give hans.rep halloc.payloads_mono halloc.mem_payloads⟩

/-- **One event.** -/
theorem Inv.exec (h : Inv os w B) {e : Event} (he : Known w e) :
    ∃ w' B', exec os w e = .ok w' ∧ Inv os w' B' := by
  cases e with
  | smalloc size =>
      obtain ⟨x, B', hrun, hinv⟩ := h.smalloc (.smalloc size) w.live size
      exact ⟨_, B', by rw [Malloc2.exec, hrun]; rfl, hinv⟩
  | scalloc num size =>
      by_cases hr : sizeT (num * size) = 0 ∨ maxRequest < sizeT (num * size)
      · refine ⟨w.give (.scalloc num size) w.live (0, w.heap), B, ?_,
          h.give h.rep subset_rfl fun hx => absurd rfl hx⟩
        rw [Malloc2.exec, scalloc, smalloc_refuses os w.heap hr]
        rfl
      · obtain ⟨x, B', hrun, halloc, hans, -⟩ :=
          scalloc_spec num size h.rep (by omega) (by omega)
        exact ⟨_, B', by rw [Malloc2.exec, hrun]; rfl,
          h.give hans.rep halloc.payloads_mono halloc.mem_payloads⟩
  | srealloc oldp size =>
      by_cases hr : size = 0 ∨ maxRequest < size
      · refine ⟨w.give (.srealloc oldp size) (w.live.erase oldp) (0, w.heap), B, ?_,
          h.give h.rep subset_rfl fun hx => absurd rfl hx⟩
        rw [Malloc2.exec, srealloc, if_pos hr]
        rfl
      rcases he with rfl | hp
      · -- no old block: `smalloc`
        obtain ⟨x, B', hrun, hinv⟩ := h.smalloc (.srealloc 0 size) (w.live.erase 0) size
        refine ⟨_, B', ?_, hinv⟩
        rw [Malloc2.exec, srealloc, if_neg hr, if_pos rfl, hrun]
        rfl
      · obtain ⟨m, hm, hk, rfl⟩ := h.returned oldp hp
        obtain ⟨x, B', hrun, halloc, hans, -⟩ :=
          srealloc_spec (r := size) h.rep hm hk (by omega) (by omega)
        exact ⟨_, B', by rw [Malloc2.exec, hrun]; rfl,
          h.give hans.rep halloc.payloads_mono (halloc.mem_payloads hm hk)⟩
  | sfree p =>
      rcases he with rfl | hp
      · exact ⟨{ w with live := w.live.erase 0, log := (.sfree 0, 0) :: w.log }, B,
          by rw [Malloc2.exec, sfree, if_pos rfl]; rfl, h.rep, h.returned⟩
      · obtain ⟨m, hm, hk, rfl⟩ := h.returned p hp
        obtain ⟨s', B', hrun, hrep, -, -, hB⟩ := sfree_spec h.rep hm hk
        refine ⟨_, B', by rw [Malloc2.exec, hrun]; rfl, hrep, fun p hp => ?_⟩
        rcases hB with ⟨-, rfl⟩ | ⟨-, L, R, rfl, rfl⟩
        · exact h.returned p hp
        · exact payloads_release (h.returned p hp)
  | write p off byte =>
      obtain ⟨m, hm, hk, rfl⟩ := h.returned p he.1
      refine ⟨_, B, rfl, h.rep.writeIn hm fun x hx => ?_, h.returned⟩
      have hoff := he.2
      rw [World.sizeOf, Block.payload, Nat.add_sub_cancel, h.rep.size m hm] at hoff
      have hfin := m.fin_used hk
      exact Function.update_of_ne (by omega) _ _

/-- **Every run** of known pointers ends in a state with the invariant. -/
theorem run_inv {es : List Event} (h : Throughout os mem Known es) :
    ∃ w, run os mem es = .ok w ∧ ∃ B, Inv os w B := by
  refine Outcome.exists_ok (runFrom_outcome (I := fun w => ∃ B, Inv os w B) ?_
    ⟨[], .init os mem⟩ h)
  rintro w e ⟨B, hB⟩ he
  obtain ⟨w', B', hrun, hB'⟩ := hB.exec he
  rw [hrun]
  exact ⟨B', hB'⟩

end Inv

/-! ## The free list -/

/-- The free list of `s` is `l`, for the blocks `B`. -/
structure FreeListExact (s : Heap) (B : List Block) (l : List Nat) : Prop where
  head : s.freeList = l.headD 0
  linked : Seg (s.get .next) (s.get .prev) 0 l 0
  notNull : 0 ∉ l
  sorted : l.Pairwise (· < ·)
  mem : ∀ a, a ∈ l ↔ a ∈ heads B ∧ s.isFree a = true
  freeBlocksNum : s.freeBlocksNum = l.length
  freeBytesNum : s.freeBytesNum = (l.map (s.get .size)).sum
  /-- The two subtractions of `smalloc`, whatever is asked for next. -/
  noWrap : ∀ size current, findFit s size walkFuel s.freeList = .ok current → current ≠ 0 →
    s.get .size current ≤ s.freeBytesNum ∧ 1 ≤ s.freeBlocksNum

theorem Rep.freeListExact {os : Os} {s : Heap} {B : List Block} (h : Rep os s B) :
    FreeListExact s B (freeAddrs B) where
  head := h.head
  linked := h.linked
  notNull := h.zero_notMem
  sorted := h.tiles.freeAddrs_sorted
  mem := by
    intro a
    constructor
    · intro ha
      obtain ⟨b, hb, hk, rfl⟩ := mem_freeAddrs.mp ha
      refine ⟨mem_heads hb, ?_⟩
      rw [h.flag b hb, Block.isFree, hk]
      rfl
    · rintro ⟨⟨b, hb, rfl⟩, hf⟩
      rw [h.flag b hb, Block.isFree, beq_iff_eq] at hf
      exact mem_freeAddrs.mpr ⟨b, hb, hf, rfl⟩
  freeBlocksNum := h.freeBlocksNum
  freeBytesNum := by
    rw [h.freeBytesNum, freeBytes, freeAddrs, List.map_map]
    refine congrArg List.sum (List.map_congr_left fun b hb => ?_)
    exact (h.size b (List.mem_filter.mp hb).1).symm
  noWrap := by
    intro size current hrun h0
    rcases h.search size with ⟨hno, -⟩ | ⟨L, b, R, rfl, hb, -, -, hyes⟩
    · rw [hno] at hrun
      exact absurd (Except.ok.inj hrun).symm h0
    · rw [hyes] at hrun
      rw [← Except.ok.inj hrun, h.size b (by simp)]
      exact (h.take hb).2.2

/-- **The free list of `malloc_2.cpp`** after any calls with pointers that
were returned at some time: sorted, doubly linked, exactly the free blocks,
and counted. -/
theorem free_list_exact (os : Os) (mem : Mem) (es : List Event) (h : Throughout os mem Known es) :
    ∃ w, run os mem es = .ok w ∧ ∃ B, Tiles os.brk0 B w.heap.kernel.brk ∧
      (∀ b ∈ B, w.heap.get .size b.addr = b.size) ∧ (∀ p ∈ w.returned, p ∈ payloads B) ∧
      ∃ l, FreeListExact w.heap B l := by
  obtain ⟨w, hrun, B, hinv⟩ := run_inv h
  exact ⟨w, hrun, B, hinv.rep.tiles, hinv.rep.size, hinv.returned, _, hinv.rep.freeListExact⟩

/-- A kernel that refuses one `sbrk`, for the payload of the second block. -/
def refusesFourth : Os := .refusing fun n => n == 3

/-- A header without a payload, a double free and a use after free. -/
def untidyEvents : List Event :=
  [.smalloc 100, .smalloc 50, .smalloc 200, .sfree 4128, .sfree 4128, .srealloc 4128 150,
    .scalloc 5 10, .sfree 4292, .sfree 4128]

theorem free_list_exact_untidy : ∃ w, run refusesFourth (fun _ => 0) untidyEvents = .ok w ∧
    ∃ B, Tiles refusesFourth.brk0 B w.heap.kernel.brk ∧
      (∀ b ∈ B, w.heap.get .size b.addr = b.size) ∧ (∀ p ∈ w.returned, p ∈ payloads B) ∧
      ∃ l, FreeListExact w.heap B l :=
  free_list_exact refusesFourth (fun _ => 0) untidyEvents (by decide +kernel)

end OsAllHw.Malloc2
