import OsAllHw.Malloc2.Code

/-!
# Blocks of `malloc_2.cpp`

A block never moves and never changes its size, so the data segment is a
row of blocks in the order they were made, each starting where the one
before it ends (`Tiles`). A block is in use or free, unless its second
`sbrk` was refused: then only its header is there, an `orphan` that no
caller ever sees.
-/

namespace OsAllHw.Malloc2

open Lib

inductive Kind where
  | used
  | free
  /-- A header without a payload. -/
  | orphan
  deriving DecidableEq

structure Block where
  addr : Nat
  /-- The recorded size. -/
  size : Nat
  kind : Kind
  deriving DecidableEq

namespace Block

def payload (b : Block) : Nat := b.addr + metaSize

/-- The bytes behind the header. -/
def room (b : Block) : Nat :=
  match b.kind with
  | .orphan => 0
  | _ => b.size

def fin (b : Block) : Nat := b.payload + b.room

def isFree (b : Block) : Bool := b.kind == .free

theorem room_eq (b : Block) (h : b.kind ≠ .orphan) : b.room = b.size := by
  unfold room
  cases hk : b.kind with
  | used => rfl
  | free => rfl
  | orphan => exact absurd hk h

theorem addr_lt_payload (b : Block) : b.addr < b.payload := Nat.lt_add_of_pos_right (by decide)

theorem payload_le_fin (b : Block) : b.payload ≤ b.fin := Nat.le_add_right _ _

theorem addr_lt_fin (b : Block) : b.addr < b.fin := b.addr_lt_payload.trans_le b.payload_le_fin

end Block

/-- The blocks lie one after the other from `lo` to `hi`. -/
def Tiles : Nat → List Block → Nat → Prop
  | lo, [], hi => lo = hi
  | lo, b :: B, hi => b.addr = lo ∧ Tiles b.fin B hi

/-- The header addresses. -/
def heads (B : List Block) : Set Nat := { a | ∃ b ∈ B, b.addr = a }

/-- The headers of the free blocks, in address order. -/
def freeAddrs (B : List Block) : List Nat := (B.filter Block.isFree).map Block.addr

/-- The sum of the sizes of the free blocks. -/
def freeBytes (B : List Block) : Nat := ((B.filter Block.isFree).map Block.size).sum

def totalSize (B : List Block) : Nat := (B.map Block.size).sum

theorem mem_heads {B : List Block} {b : Block} (hb : b ∈ B) : b.addr ∈ heads B := ⟨b, hb, rfl⟩

/-! ## Tilings -/

namespace Tiles

variable {lo hi : Nat} {L R B : List Block} {b c : Block}

theorem middle_iff : Tiles lo (L ++ b :: R) hi ↔ Tiles lo L b.addr ∧ Tiles b.fin R hi := by
  induction L generalizing lo with
  | nil => exact and_congr_left' eq_comm
  | cons a L ih => simp only [List.cons_append, Tiles, ih, and_assoc]

theorem le (h : Tiles lo B hi) : lo ≤ hi := by
  induction B generalizing lo with
  | nil => exact h.le
  | cons b B ih =>
      obtain ⟨rfl, h⟩ := h
      exact b.addr_lt_fin.le.trans (ih h)

theorem bounds (h : Tiles lo B hi) (hb : b ∈ B) : lo ≤ b.addr ∧ b.fin ≤ hi := by
  obtain ⟨L, R, rfl⟩ := List.append_of_mem hb
  obtain ⟨h1, h2⟩ := middle_iff.mp h
  exact ⟨h1.le, h2.le⟩

theorem pairwise (h : Tiles lo B hi) : B.Pairwise fun b c => b.fin ≤ c.addr := by
  induction B generalizing lo with
  | nil => exact .nil
  | cons b B ih =>
      obtain ⟨-, h⟩ := h
      exact List.pairwise_cons.mpr ⟨fun c hc => (h.bounds hc).1, ih h⟩

/-- Two blocks do not overlap. -/
theorem disjoint (h : Tiles lo B hi) (hb : b ∈ B) (hc : c ∈ B) (hne : b ≠ c) :
    b.fin ≤ c.addr ∨ c.fin ≤ b.addr := by
  have hpw : B.Pairwise fun b c => b.fin ≤ c.addr ∨ c.fin ≤ b.addr := h.pairwise.imp Or.inl
  have : Std.Symm fun b c : Block => b.fin ≤ c.addr ∨ c.fin ≤ b.addr := ⟨fun _ _ => Or.symm⟩
  exact hpw.forall hb hc hne

theorem eq_of_addr (h : Tiles lo B hi) (hb : b ∈ B) (hc : c ∈ B) (he : b.addr = c.addr) :
    b = c := by
  by_contra hne
  have := b.addr_lt_fin
  have := c.addr_lt_fin
  rcases h.disjoint hb hc hne with h1 | h1 <;> omega

/-- A block that takes as much room at the same place. -/
theorem replace (h : Tiles lo (L ++ b :: R) hi) (ha : c.addr = b.addr) (hf : c.fin = b.fin) :
    Tiles lo (L ++ c :: R) hi := by
  rw [middle_iff] at h ⊢
  rw [ha, hf]
  exact h

/-- One more block at the end. -/
theorem concat (h : Tiles lo B hi) (hb : b.addr = hi) : Tiles lo (B ++ [b]) b.fin :=
  middle_iff.mpr ⟨hb ▸ h, rfl⟩

theorem addr_sorted (h : Tiles lo B hi) : (B.map Block.addr).Pairwise (· < ·) :=
  List.pairwise_map.mpr (h.pairwise.imp fun {b _} hbc => b.addr_lt_fin.trans_le hbc)

theorem freeAddrs_sorted (h : Tiles lo B hi) : (freeAddrs B).Pairwise (· < ·) :=
  h.addr_sorted.sublist (List.filter_sublist.map _)

/-- Every header and every byte counted in a payload is there. -/
theorem room_le (h : Tiles lo B hi) : lo + (metaSize * B.length + (B.map Block.room).sum) = hi := by
  induction B generalizing lo with
  | nil => exact h
  | cons b B ih =>
      obtain ⟨rfl, h⟩ := h
      rw [← ih h, List.map_cons, List.sum_cons, List.length_cons, Nat.mul_succ]
      unfold Block.fin Block.payload
      omega

theorem spaced (h : Tiles lo B hi) : Spaced metaSize (heads B) := by
  rintro _ ⟨b, hb, rfl⟩ _ ⟨c, hc, rfl⟩ hne
  have hb' := b.payload_le_fin
  have hc' := c.payload_le_fin
  unfold Block.payload at hb' hc'
  have := h.disjoint hb hc fun he => hne (he ▸ rfl)
  omega

end Tiles

/-! ## The free blocks of a list -/

section FreeBlocks

variable {L R B : List Block} {b : Block} {a lo hi : Nat}

theorem mem_freeAddrs : a ∈ freeAddrs B ↔ ∃ b ∈ B, b.kind = .free ∧ b.addr = a := by
  simp [freeAddrs, Block.isFree, and_assoc]

theorem freeAddrs_subset (ha : a ∈ freeAddrs B) : a ∈ heads B := by
  obtain ⟨b, hb, -, rfl⟩ := mem_freeAddrs.mp ha
  exact mem_heads hb

@[simp] theorem freeAddrs_append : freeAddrs (L ++ R) = freeAddrs L ++ freeAddrs R := by
  simp [freeAddrs]

theorem freeAddrs_cons_free (hb : b.kind = .free) :
    freeAddrs (b :: R) = b.addr :: freeAddrs R := by
  simp [freeAddrs, Block.isFree, hb]

theorem freeAddrs_cons (hb : b.kind ≠ .free) : freeAddrs (b :: R) = freeAddrs R := by
  simp [freeAddrs, Block.isFree, hb]

@[simp] theorem freeBytes_append : freeBytes (L ++ R) = freeBytes L + freeBytes R := by
  simp [freeBytes]

theorem freeBytes_cons_free (hb : b.kind = .free) :
    freeBytes (b :: R) = b.size + freeBytes R := by
  simp [freeBytes, Block.isFree, hb]

theorem freeBytes_cons (hb : b.kind ≠ .free) : freeBytes (b :: R) = freeBytes R := by
  simp [freeBytes, Block.isFree, hb]

@[simp] theorem totalSize_append : totalSize (L ++ R) = totalSize L + totalSize R := by
  simp [totalSize]

@[simp] theorem totalSize_cons : totalSize (b :: R) = b.size + totalSize R := by
  simp [totalSize]

@[simp] theorem totalSize_nil : totalSize [] = 0 := rfl

/-- The free blocks are all there, so their sizes fit the segment. -/
theorem freeBytes_le : freeBytes B ≤ (B.map Block.room).sum := by
  induction B with
  | nil => exact le_rfl
  | cons b B ih =>
      rw [List.map_cons, List.sum_cons]
      by_cases hb : b.kind = .free
      · rw [freeBytes_cons_free hb, b.room_eq (by simp [hb])]
        exact Nat.add_le_add_left ih _
      · rw [freeBytes_cons hb]
        exact ih.trans (Nat.le_add_left _ _)

theorem length_freeAddrs_le : (freeAddrs B).length ≤ B.length := by
  rw [freeAddrs, List.length_map]
  exact List.length_filter_le _ _

theorem heads_replace {c : Block} (ha : c.addr = b.addr) :
    heads (L ++ c :: R) = heads (L ++ b :: R) := by
  have hmem : ∀ (d : Block) x,
      x ∈ heads (L ++ d :: R) ↔ x ∈ heads L ∨ d.addr = x ∨ x ∈ heads R := by
    intro d x
    simp only [heads, List.mem_append, List.mem_cons, Set.mem_ofPred_eq]
    constructor
    · rintro ⟨e, h | rfl | h, he⟩
      · exact .inl ⟨e, h, he⟩
      · exact .inr (.inl he)
      · exact .inr (.inr ⟨e, h, he⟩)
    · rintro (⟨e, h, he⟩ | h | ⟨e, h, he⟩)
      · exact ⟨e, .inl h, he⟩
      · exact ⟨d, .inr (.inl rfl), h⟩
      · exact ⟨e, .inr (.inr h), he⟩
  ext x
  rw [hmem, hmem, ha]

end FreeBlocks

end OsAllHw.Malloc2
