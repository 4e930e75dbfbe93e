import Mathlib

/-!
# First-fit allocation

An allocator that never moves, cuts or joins blocks. A block is known by the
address of its header, which is `hdr` bytes long; its size is fixed when it
is made. A request takes the lowest free block that is large enough and, if
there is none, extends the segment by a block of exactly its size; requests
of no bytes, or of more than `cap`, are refused.
-/

namespace Lib.FirstFit

/-- A finite map from block addresses to sizes, the free ones among them,
and the end of the segment. -/
structure State where
  blocks : Finset Nat
  size : Nat → Nat
  free : Finset Nat
  brk : Nat

/-- An empty segment. -/
def State.init (brk : Nat) : State := ⟨∅, fun _ => 0, ∅, brk⟩

/-- What a client can ask for; pointers are payloads, 0 is `NULL`. -/
inductive Op where
  | alloc (n : Nat)
  | resize (p n : Nat)
  | release (p : Nat)

/-- The block a request of `n` bytes is given. -/
inductive Alloc (hdr : Nat) (a : State) (n : Nat) : Nat → State → Prop where
  | reuse (b : Nat) (hb : b ∈ a.free) (hn : n ≤ a.size b)
      (hleast : ∀ c ∈ a.free, n ≤ a.size c → b ≤ c) :
      Alloc hdr a n b { a with free := a.free.erase b }
  | extend (hnone : ∀ c ∈ a.free, a.size c < n) :
      Alloc hdr a n a.brk
        { blocks := insert a.brk a.blocks
          size := Function.update a.size a.brk n
          free := a.free
          brk := a.brk + hdr + n }

/-- One call and the pointer it returns. -/
inductive Step (hdr cap : Nat) (a : State) : Op → Nat → State → Prop where
  | refused (n : Nat) (hn : n = 0 ∨ cap < n) : Step hdr cap a (.alloc n) 0 a
  | alloc (n b : Nat) (a' : State) (h0 : n ≠ 0) (hcap : n ≤ cap) (h : Alloc hdr a n b a') :
      Step hdr cap a (.alloc n) (b + hdr) a'
  | resizeRefused (p n : Nat) (hn : n = 0 ∨ cap < n) : Step hdr cap a (.resize p n) 0 a
  | resizeNull (n b : Nat) (a' : State) (h0 : n ≠ 0) (hcap : n ≤ cap) (h : Alloc hdr a n b a') :
      Step hdr cap a (.resize 0 n) (b + hdr) a'
  | keep (b n : Nat) (h0 : n ≠ 0) (hcap : n ≤ cap) (hb : b ∈ a.blocks) (hused : b ∉ a.free)
      (hn : n ≤ a.size b) : Step hdr cap a (.resize (b + hdr) n) (b + hdr) a
  | move (b c n : Nat) (a' : State) (h0 : n ≠ 0) (hcap : n ≤ cap) (hb : b ∈ a.blocks)
      (hused : b ∉ a.free) (hn : a.size b < n) (h : Alloc hdr a n c a') :
      Step hdr cap a (.resize (b + hdr) n) (c + hdr) { a' with free := insert b a'.free }
  | releaseNull : Step hdr cap a (.release 0) 0 a
  | release (b : Nat) (hb : b ∈ a.blocks) (hused : b ∉ a.free) :
      Step hdr cap a (.release (b + hdr)) 0 { a with free := insert b a.free }

/-- Calls with their results, the latest first. -/
inductive Run (hdr cap : Nat) (a : State) : List (Op × Nat) → State → Prop where
  | nil : Run hdr cap a [] a
  | cons {l : List (Op × Nat)} {b c : State} {op : Op} {q : Nat} (h : Run hdr cap a l b)
      (hstep : Step hdr cap b op q c) : Run hdr cap a ((op, q) :: l) c

/-- Blocks with their headers are disjoint and lie below the break. -/
structure State.Ok (hdr : Nat) (a : State) : Prop where
  free_subset : a.free ⊆ a.blocks
  below : ∀ b ∈ a.blocks, b + hdr + a.size b ≤ a.brk
  apart : ∀ b ∈ a.blocks, ∀ c ∈ a.blocks, b < c → b + hdr + a.size b ≤ c

/-- No block is lost, moved or given another size. -/
structure Grows (a a' : State) : Prop where
  blocks : a.blocks ⊆ a'.blocks
  size : ∀ b ∈ a.blocks, a'.size b = a.size b
  brk : a.brk ≤ a'.brk

namespace Grows

variable {a a' a'' : State}

theorem refl (a : State) : Grows a a := ⟨subset_rfl, fun _ _ => rfl, le_rfl⟩

theorem trans (h : Grows a a') (h' : Grows a' a'') : Grows a a'' :=
  ⟨h.blocks.trans h'.blocks, fun b hb => (h'.size b (h.blocks hb)).trans (h.size b hb),
    h.brk.trans h'.brk⟩

end Grows

section Invariants

variable {hdr cap n b q : Nat} {a a' : State} {op : Op}

theorem State.Ok.init (hdr brk : Nat) : (State.init brk).Ok hdr :=
  ⟨subset_rfl, fun b hb => absurd hb (Finset.notMem_empty b),
    fun b hb => absurd hb (Finset.notMem_empty b)⟩

/-- The free set may change within the blocks. -/
theorem State.Ok.setFree (h : a.Ok hdr) {F : Finset Nat} (hF : F ⊆ a.blocks) :
    State.Ok hdr { a with free := F } := ⟨hF, h.below, h.apart⟩

theorem State.Ok.brk_notMem (h : a.Ok hdr) (hpos : 0 < hdr) : a.brk ∉ a.blocks := fun hm => by
  have := h.below _ hm
  omega

theorem Alloc.grows (h : Alloc hdr a n b a') (ha : a.Ok hdr) (hpos : 0 < hdr) : Grows a a' := by
  cases h with
  | reuse b hb hn hleast => exact ⟨subset_rfl, fun _ _ => rfl, le_rfl⟩
  | extend hnone =>
      refine ⟨Finset.subset_insert _ _, fun b hb => ?_, by dsimp only; omega⟩
      have hne : b ≠ a.brk := fun he => ha.brk_notMem hpos (he ▸ hb)
      exact Function.update_of_ne hne _ _

theorem Alloc.ok (h : Alloc hdr a n b a') (ha : a.Ok hdr) (hpos : 0 < hdr) : a'.Ok hdr := by
  have hsize := (h.grows ha hpos).size
  cases h with
  | reuse b hb hn hleast => exact ha.setFree ((Finset.erase_subset _ _).trans ha.free_subset)
  | extend hnone =>
      have hnew : Function.update a.size a.brk n a.brk = n := Function.update_self _ _ _
      refine ⟨ha.free_subset.trans (Finset.subset_insert _ _), fun b hb => ?_,
        fun b hb c hc hlt => ?_⟩
      · rcases Finset.mem_insert.mp hb with rfl | hb
        · exact (congrArg (a.brk + hdr + ·) hnew).le
        · have := hsize b hb
          have := ha.below b hb
          dsimp only at *
          omega
      · rcases Finset.mem_insert.mp hb with rfl | hb
        · rcases Finset.mem_insert.mp hc with rfl | hc
          · exact absurd hlt (lt_irrefl _)
          · have := ha.below c hc
            omega
        · have hb' := hsize b hb
          rcases Finset.mem_insert.mp hc with rfl | hc
          · have := ha.below b hb
            dsimp only at *
            omega
          · have := ha.apart b hb c hc hlt
            dsimp only at *
            omega

theorem Step.grows (h : Step hdr cap a op q a') (ha : a.Ok hdr) (hpos : 0 < hdr) : Grows a a' := by
  cases h with
  | refused n hn => exact .refl a
  | alloc n b a' h0 hcap h => exact h.grows ha hpos
  | resizeRefused p n hn => exact .refl a
  | resizeNull n b a' h0 hcap h => exact h.grows ha hpos
  | keep b n h0 hcap hb hused hn => exact .refl a
  | move b c n a' h0 hcap hb hused hn h =>
      have hg := h.grows ha hpos
      exact ⟨hg.blocks, hg.size, hg.brk⟩
  | releaseNull => exact .refl a
  | release b hb hused => exact ⟨subset_rfl, fun _ _ => rfl, le_rfl⟩

/-- **Disjointness** is kept by every call. -/
theorem Step.ok (h : Step hdr cap a op q a') (ha : a.Ok hdr) (hpos : 0 < hdr) : a'.Ok hdr := by
  cases h with
  | refused n hn => exact ha
  | alloc n b a' h0 hcap h => exact h.ok ha hpos
  | resizeRefused p n hn => exact ha
  | resizeNull n b a' h0 hcap h => exact h.ok ha hpos
  | keep b n h0 hcap hb hused hn => exact ha
  | move b c n a' h0 hcap hb hused hn h =>
      have hok := h.ok ha hpos
      exact hok.setFree (Finset.insert_subset ((h.grows ha hpos).blocks hb) hok.free_subset)
  | releaseNull => exact ha
  | release b hb hused => exact ha.setFree (Finset.insert_subset hb ha.free_subset)

theorem Run.ok {l : List (Op × Nat)} (h : Run hdr cap a l a') (ha : a.Ok hdr) (hpos : 0 < hdr) :
    a'.Ok hdr := by
  induction h with
  | nil => exact ha
  | cons _ hstep ih => exact hstep.ok ih hpos

theorem Run.grows {l : List (Op × Nat)} (h : Run hdr cap a l a') (ha : a.Ok hdr)
    (hpos : 0 < hdr) : Grows a a' := by
  induction h with
  | nil => exact .refl a
  | cons hrun hstep ih => exact ih.trans (hstep.grows (hrun.ok ha hpos) hpos)

end Invariants

end Lib.FirstFit
