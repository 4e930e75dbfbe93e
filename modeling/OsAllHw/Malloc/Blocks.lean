import OsAllHw.Malloc.Code

/-!
# Block lists

What the heap is, seen from outside: a list of blocks in address order,
each with a size and a flag. `Layout lo B hi` places them in `[lo, hi)`
without overlap; `Tiles lo B hi` leaves no gap either. A heap that never
saw a failed `sbrk` tiles its area, one that did may have gaps of one
header each, so everything below is proved for layouts.
-/

namespace OsAllHw.Malloc

/-- A block of the heap list. -/
structure Block where
  addr : Nat
  size : Nat
  free : Bool
  deriving DecidableEq

/-- The address the client gets. -/
def Block.payload (b : Block) : Nat := b.addr + metaSize

/-- The end of the block. -/
def Block.fin (b : Block) : Nat := b.addr + metaSize + b.size

/-- Header and payload bytes. -/
def Block.bytes (b : Block) : Nat := metaSize + b.size

/-- Blocks in address order, without overlap, inside `[lo, hi)`. -/
def Layout : Nat → List Block → Nat → Prop
  | lo, [], hi => lo ≤ hi
  | lo, b :: B, hi => lo ≤ b.addr ∧ Layout b.fin B hi

/-- Blocks that fill `[lo, hi)` exactly. -/
def Tiles : Nat → List Block → Nat → Prop
  | lo, [], hi => lo = hi
  | lo, b :: B, hi => b.addr = lo ∧ Tiles b.fin B hi

/-- Bytes taken by a list of blocks, headers included. -/
def totalBytes (B : List Block) : Nat := (B.map Block.bytes).sum

/-- The header addresses. -/
def heads (B : List Block) : Set Nat := { a | ∃ b ∈ B, b.addr = a }

/-- The header addresses of the free blocks. -/
def freeHeads (B : List Block) : Set Nat := { a | ∃ b ∈ B, b.free = true ∧ b.addr = a }

theorem payload_le_fin (b : Block) : b.payload ≤ b.fin := Nat.le_add_right _ _

theorem addr_lt_payload (b : Block) : b.addr < b.payload := Nat.lt_add_of_pos_right (by decide)

theorem addr_lt_fin (b : Block) : b.addr < b.fin := (addr_lt_payload b).trans_le (payload_le_fin b)

namespace Layout

variable {lo lo' hi hi' : Nat} {L R B : List Block} {b c : Block}

theorem le (h : Layout lo B hi) : lo ≤ hi := by
  induction B generalizing lo with
  | nil => exact h
  | cons b B ih =>
      have := ih h.2
      have := addr_lt_fin b
      have := h.1
      omega

theorem append_iff : Layout lo (L ++ R) hi ↔ ∃ mid, Layout lo L mid ∧ Layout mid R hi := by
  induction L generalizing lo with
  | nil =>
      constructor
      · exact fun h => ⟨lo, Nat.le_refl lo, h⟩
      · rintro ⟨mid, h1, h2⟩
        cases R with
        | nil => exact Nat.le_trans h1 h2
        | cons b R => exact ⟨Nat.le_trans h1 h2.1, h2.2⟩
  | cons b L ih =>
      simp only [List.cons_append, Layout, ih]
      exact ⟨fun ⟨h, m, h1, h2⟩ => ⟨m, ⟨h, h1⟩, h2⟩, fun ⟨m, ⟨h, h1⟩, h2⟩ => ⟨h, m, h1, h2⟩⟩

theorem mono (h : Layout lo B hi) (hlo : lo' ≤ lo) (hhi : hi ≤ hi') : Layout lo' B hi' := by
  induction B generalizing lo lo' with
  | nil => exact hlo.trans (Nat.le_trans h hhi)
  | cons b B ih => exact ⟨hlo.trans h.1, ih h.2 (Nat.le_refl _)⟩

/-- Around one block. -/
theorem middle_iff : Layout lo (L ++ b :: R) hi ↔
    ∃ mid, Layout lo L mid ∧ mid ≤ b.addr ∧ Layout b.fin R hi := by
  rw [append_iff]
  rfl

theorem bounds (h : Layout lo B hi) (hb : b ∈ B) : lo ≤ b.addr ∧ b.fin ≤ hi := by
  obtain ⟨L, R, rfl⟩ := List.append_of_mem hb
  obtain ⟨mid, h1, h2, h3⟩ := middle_iff.mp h
  exact ⟨h1.le.trans h2, h3.le⟩

/-- Distinct blocks never overlap. -/
theorem pairwise (h : Layout lo B hi) : B.Pairwise fun b c => b.fin ≤ c.addr := by
  induction B generalizing lo with
  | nil => exact .nil
  | cons b B ih => exact List.pairwise_cons.mpr ⟨fun c hc => (h.2.bounds hc).1, ih h.2⟩

theorem disjoint (h : Layout lo B hi) (hb : b ∈ B) (hc : c ∈ B) (hne : b ≠ c) :
    b.fin ≤ c.addr ∨ c.fin ≤ b.addr := by
  have : Std.Symm fun b c : Block => b.fin ≤ c.addr ∨ c.fin ≤ b.addr := ⟨fun _ _ => Or.symm⟩
  exact (h.pairwise.imp (S := fun b c => b.fin ≤ c.addr ∨ c.fin ≤ b.addr) Or.inl).forall
    hb hc hne

/-- A block is known by its address. -/
theorem eq_of_addr (h : Layout lo B hi) (hb : b ∈ B) (hc : c ∈ B) (ha : b.addr = c.addr) :
    b = c := by
  by_contra hne
  have := addr_lt_fin b
  have := addr_lt_fin c
  have := h.disjoint hb hc hne
  omega

/-- A shorter block in the place of another. -/
theorem replace (h : Layout lo (L ++ b :: R) hi) (ha : c.addr = b.addr) (hf : c.fin ≤ b.fin) :
    Layout lo (L ++ c :: R) hi := by
  obtain ⟨mid, h1, h2, h3⟩ := middle_iff.mp h
  exact middle_iff.mpr ⟨mid, h1, ha ▸ h2, h3.mono hf (Nat.le_refl _)⟩

/-- Two neighbours become one block. -/
theorem merge {d : Block} (h : Layout lo (L ++ b :: c :: R) hi) (ha : d.addr = b.addr)
    (hf : d.fin ≤ c.fin) : Layout lo (L ++ d :: R) hi := by
  obtain ⟨mid, h1, h2, h3, h4⟩ := middle_iff.mp h
  exact middle_iff.mpr ⟨mid, h1, ha ▸ h2, h4.mono hf (Nat.le_refl _)⟩

/-- One block becomes two. -/
theorem split {d : Block} (h : Layout lo (L ++ b :: R) hi) (ha : c.addr = b.addr)
    (hcd : c.fin ≤ d.addr) (hd : d.fin ≤ b.fin) : Layout lo (L ++ c :: d :: R) hi := by
  obtain ⟨mid, h1, h2, h3⟩ := middle_iff.mp h
  exact middle_iff.mpr ⟨mid, h1, ha ▸ h2, hcd, h3.mono hd (Nat.le_refl _)⟩

theorem total_le (h : Layout lo B hi) : lo + totalBytes B ≤ hi := by
  induction B generalizing lo with
  | nil => exact h
  | cons b B ih =>
      have h1 := h.1
      have h2 := ih h.2
      simp only [totalBytes, List.map_cons, List.sum_cons, Block.bytes, Block.fin] at h2 ⊢
      omega

/-- A layout with no byte to spare is a tiling. -/
theorem tiles (h : Layout lo B hi) (ht : hi = lo + totalBytes B) : Tiles lo B hi := by
  induction B generalizing lo with
  | nil => exact ht.symm
  | cons b B ih =>
      have h1 := h.1
      have h2 := h.2.total_le
      simp only [totalBytes, List.map_cons, List.sum_cons, Block.bytes, Block.fin] at h2 ht
      refine ⟨by omega, ih h.2 ?_⟩
      simp only [totalBytes, Block.fin]
      omega

end Layout

section Totals

variable (L R B : List Block) (b c : Block)

@[simp] theorem totalBytes_append : totalBytes (L ++ R) = totalBytes L + totalBytes R := by
  simp [totalBytes]

@[simp] theorem totalBytes_cons : totalBytes (b :: B) = b.bytes + totalBytes B := rfl

@[simp] theorem totalBytes_nil : totalBytes [] = 0 := rfl

/-- Each block takes at least its header. -/
theorem length_le_totalBytes : metaSize * B.length ≤ totalBytes B := by
  induction B with
  | nil => simp
  | cons b B ih =>
      rw [List.length_cons, totalBytes_cons, Nat.mul_succ, Nat.add_comm]
      exact Nat.add_le_add (Nat.le_add_right _ _) ih

end Totals

/-! ## Ends -/

/-- Address of the first block, 0 if there is none. -/
def firstAddr (B : List Block) : Nat := (B.map Block.addr).headD 0

/-- Address of the last block, 0 if there is none. -/
def lastAddr (B : List Block) : Nat := (B.map Block.addr).getLastD 0

section Ends

variable (L R B : List Block) (b : Block)

@[simp] theorem firstAddr_nil : firstAddr [] = 0 := rfl

@[simp] theorem firstAddr_cons : firstAddr (b :: B) = b.addr := rfl

@[simp] theorem lastAddr_nil : lastAddr [] = 0 := rfl

@[simp] theorem lastAddr_concat : lastAddr (L ++ [b]) = b.addr := by
  simp [lastAddr]

theorem lastAddr_append_cons : lastAddr (L ++ b :: R) = lastAddr (b :: R) := by
  simp [lastAddr, List.getLast?_cons]

theorem lastAddr_cons_cons (c : Block) : lastAddr (b :: c :: R) = lastAddr (c :: R) := rfl

theorem firstAddr_append_cons : firstAddr (L ++ b :: R) = firstAddr (L ++ [b]) := by
  cases L <;> rfl

end Ends

/-! ## Header addresses -/

section Heads

variable {L R B : List Block} {b : Block} {a : Nat}

theorem mem_heads (hb : b ∈ B) : b.addr ∈ heads B := ⟨b, hb, rfl⟩

theorem mem_map_addr : a ∈ B.map Block.addr ↔ a ∈ heads B := by
  simp [heads]

theorem freeHeads_subset : freeHeads B ⊆ heads B := fun _ ⟨b, hb, _, ha⟩ => ⟨b, hb, ha⟩

theorem mem_heads_append : a ∈ heads (L ++ R) ↔ a ∈ heads L ∨ a ∈ heads R := by
  simp only [← mem_map_addr, List.map_append, List.mem_append]

theorem mem_heads_cons : a ∈ heads (b :: B) ↔ a = b.addr ∨ a ∈ heads B := by
  simp only [← mem_map_addr, List.map_cons, List.mem_cons]

theorem mem_freeHeads_append : a ∈ freeHeads (L ++ R) ↔ a ∈ freeHeads L ∨ a ∈ freeHeads R := by
  constructor
  · rintro ⟨b, hb, h⟩
    exact (List.mem_append.mp hb).imp (⟨b, ·, h⟩) (⟨b, ·, h⟩)
  · rintro (⟨b, hb, h⟩ | ⟨b, hb, h⟩)
    · exact ⟨b, List.mem_append_left _ hb, h⟩
    · exact ⟨b, List.mem_append_right _ hb, h⟩

theorem mem_freeHeads_cons :
    a ∈ freeHeads (b :: B) ↔ (b.free = true ∧ a = b.addr) ∨ a ∈ freeHeads B := by
  constructor
  · rintro ⟨c, hc, hf, rfl⟩
    rcases List.mem_cons.mp hc with rfl | hc
    · exact .inl ⟨hf, rfl⟩
    · exact .inr ⟨c, hc, hf, rfl⟩
  · rintro (⟨hf, rfl⟩ | ⟨c, hc, h⟩)
    · exact ⟨b, by simp, hf, rfl⟩
    · exact ⟨c, by simp [hc], h⟩

theorem firstAddr_mem_or (B : List Block) :
    firstAddr B = 0 ∧ B = [] ∨ firstAddr B ∈ heads B := by
  cases B with
  | nil => exact .inl ⟨rfl, rfl⟩
  | cons b B => exact .inr ⟨b, by simp, rfl⟩

theorem freeHeads_nil : freeHeads [] = ∅ := by
  ext a
  simp [freeHeads]

theorem forall_mem_replace {P : Block → Prop} {c : Block} (h : ∀ d ∈ L ++ b :: R, P d)
    (hc : P c) : ∀ d ∈ L ++ c :: R, P d := by
  intro d hd
  by_cases hdc : d = c
  · exact hdc ▸ hc
  · exact h d (by simp only [List.mem_append, List.mem_cons, hdc, false_or] at hd ⊢
                  exact hd.imp_right Or.inr)

theorem heads_replace (b c : Block) (ha : c.addr = b.addr) :
    heads (L ++ c :: R) = heads (L ++ b :: R) := by
  ext a
  simp only [mem_heads_append, mem_heads_cons, ha]

theorem freeHeads_mark (b c : Block) (ha : c.addr = b.addr) (hc : c.free = true) :
    freeHeads (L ++ c :: R) = insert b.addr (freeHeads (L ++ b :: R)) := by
  ext a
  simp only [mem_freeHeads_append, mem_freeHeads_cons, Set.mem_insert_iff, ha, hc, true_and]
  constructor
  · rintro (h | h | h) <;> simp [h]
  · rintro (h | h | h | h) <;> simp [h]

/-- In a layout no other block has the header address of `b`. -/
theorem Layout.addr_notMem {lo hi : Nat} (h : Layout lo (L ++ b :: R) hi) :
    b.addr ∉ heads L ∧ b.addr ∉ heads R := by
  obtain ⟨mid, h1, h2, h3⟩ := Layout.middle_iff.mp h
  constructor
  · rintro ⟨c, hc, he⟩
    have := (h1.bounds hc).2
    have := addr_lt_fin c
    omega
  · rintro ⟨c, hc, he⟩
    have := (h3.bounds hc).1
    have := addr_lt_fin b
    omega

theorem freeHeads_take {lo hi : Nat} {c : Block} (h : Layout lo (L ++ b :: R) hi)
    (hc : c.free = false) : freeHeads (L ++ c :: R) = freeHeads (L ++ b :: R) \ {b.addr} := by
  obtain ⟨hbL, hbR⟩ := h.addr_notMem
  ext a
  simp only [mem_freeHeads_append, mem_freeHeads_cons, Set.mem_sdiff, Set.mem_singleton_iff, hc]
  constructor
  · rintro (h | h | h)
    · exact ⟨.inl h, fun he => hbL (he ▸ freeHeads_subset h)⟩
    · simp at h
    · exact ⟨.inr (.inr h), fun he => hbR (he ▸ freeHeads_subset h)⟩
  · rintro ⟨h | h | h, hne⟩
    · exact .inl h
    · exact absurd h.2 hne
    · exact .inr (.inr h)

/-- The free headers after two free neighbours were united. -/
theorem freeHeads_unite {lo hi : Nat} {c : Block} (d : Block) (h : Layout lo (L ++ b :: c :: R) hi)
    (hd : d.addr = b.addr) (hf : d.free = true) :
    freeHeads (L ++ d :: R) =
      insert b.addr ((freeHeads (L ++ b :: c :: R) \ {c.addr}) \ {b.addr}) := by
  obtain ⟨hbL, hbR⟩ := h.addr_notMem
  have hc := (show Layout lo ((L ++ [b]) ++ c :: R) hi by simpa using h).addr_notMem
  have hcL : c.addr ∉ heads L := fun hm => hc.1 (mem_heads_append.mpr (.inl hm))
  have hbR' : b.addr ∉ heads R := fun hm => hbR (mem_heads_cons.mpr (.inr hm))
  ext a
  simp only [mem_freeHeads_append, mem_freeHeads_cons, Set.mem_insert_iff, Set.mem_sdiff,
    Set.mem_singleton_iff, hd, hf, true_and]
  constructor
  · rintro (h | h | h)
    · exact .inr ⟨⟨.inl h, fun he => hcL (he ▸ freeHeads_subset h)⟩,
        fun he => hbL (he ▸ freeHeads_subset h)⟩
    · exact .inl h
    · exact .inr ⟨⟨.inr (.inr (.inr h)), fun he => hc.2 (he ▸ freeHeads_subset h)⟩,
        fun he => hbR' (he ▸ freeHeads_subset h)⟩
  · rintro (h | ⟨⟨h | h | h | h, hac⟩, hab⟩)
    · exact .inr (.inl h)
    · exact .inl h
    · exact absurd h.2 hab
    · exact absurd h.2 hac
    · exact .inr (.inr h)

/-- The free headers after a block was cut in an allocated and a free part. -/
theorem freeHeads_split {lo hi : Nat} (c d : Block) (h : Layout lo (L ++ b :: R) hi)
    (hd : d.addr ≠ b.addr) (hcf : c.free = false) (hdf : d.free = true) :
    freeHeads (L ++ c :: d :: R) = insert d.addr (freeHeads (L ++ b :: R)) \ {b.addr} := by
  obtain ⟨hbL, hbR⟩ := h.addr_notMem
  ext a
  simp only [mem_freeHeads_append, mem_freeHeads_cons, Set.mem_insert_iff, Set.mem_sdiff,
    Set.mem_singleton_iff, hcf, hdf, true_and]
  constructor
  · rintro (h | h | h | h)
    · exact ⟨.inr (.inl h), fun he => hbL (he ▸ freeHeads_subset h)⟩
    · simp at h
    · exact ⟨.inl h, fun he => hd (h ▸ he)⟩
    · exact ⟨.inr (.inr (.inr h)), fun he => hbR (he ▸ freeHeads_subset h)⟩
  · rintro ⟨h | h | h | h, hne⟩
    · exact .inr (.inr (.inl h))
    · exact .inl h
    · exact absurd h.2 hne
    · exact .inr (.inr (.inr h))

theorem Layout.nodup {lo hi : Nat} (h : Layout lo B hi) : (B.map Block.addr).Nodup := by
  rw [List.Nodup, List.pairwise_map]
  refine h.pairwise.imp fun hbc he => ?_
  rename_i b c
  have := addr_lt_fin b
  omega

end Heads

end OsAllHw.Malloc
