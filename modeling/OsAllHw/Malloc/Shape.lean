import OsAllHw.Malloc.World

/-!
# What the calls do to the block list

The relations `Allocates` and `Reallocates` and the function `freed` say
what becomes of the block list. Here are two consequences of each: which
payloads are in use afterwards, and that no two free blocks come to lie
side by side, except where `srealloc` splits a block in front of a free one.
-/

namespace OsAllHw.Malloc

/-! ## Payloads in use -/

section Used

variable {L R B B' : List Block} {b m : Block} {p q r brk lo hi : Nat}

@[simp] theorem usedPayloads_nil : p ∉ usedPayloads [] := by
  rintro ⟨b, hb, -⟩
  simp at hb

@[simp] theorem mem_usedPayloads_cons :
    p ∈ usedPayloads (b :: B) ↔ b.free = false ∧ p = b.payload ∨ p ∈ usedPayloads B := by
  constructor
  · rintro ⟨c, hc, hf, rfl⟩
    rcases List.mem_cons.mp hc with rfl | hc
    · exact .inl ⟨hf, rfl⟩
    · exact .inr ⟨c, hc, hf, rfl⟩
  · rintro (⟨hf, rfl⟩ | ⟨c, hc, h⟩)
    · exact ⟨b, by simp, hf, rfl⟩
    · exact ⟨c, by simp [hc], h⟩

@[simp] theorem mem_usedPayloads_append :
    p ∈ usedPayloads (L ++ R) ↔ p ∈ usedPayloads L ∨ p ∈ usedPayloads R := by
  induction L with
  | nil => simp
  | cons b L ih => simp [ih, or_assoc]

@[simp] theorem mem_usedPayloads_cut : p ∈ usedPayloads (cut b r) ↔ p = b.payload := by
  unfold cut
  split <;> simp [Block.payload]

@[simp] theorem mem_usedPayloads_dropFreeHead :
    p ∈ usedPayloads (dropFreeHead R) ↔ p ∈ usedPayloads R := by
  cases R with
  | nil => rfl
  | cons c R => cases hc : c.free <;> simp [dropFreeHead, hc]

@[simp] theorem mem_usedPayloads_dropFreeLast :
    p ∈ usedPayloads (dropFreeLast L) ↔ p ∈ usedPayloads L := by
  rcases List.eq_nil_or_concat L with rfl | ⟨L, a, rfl⟩
  · rfl
  · cases ha : a.free <;> simp [ha]

theorem payload_inj {b c : Block} : b.payload = c.payload ↔ b.addr = c.addr := by
  unfold Block.payload
  omega

/-- A payload belongs to one block only. -/
theorem Layout.payload_notMem (h : Layout lo (L ++ m :: R) hi) :
    m.payload ∉ usedPayloads L ∧ m.payload ∉ usedPayloads R := by
  obtain ⟨h1, h2⟩ := h.addr_notMem
  constructor
  · rintro ⟨b, hb, -, he⟩
    exact h1 ⟨b, hb, payload_inj.mp he⟩
  · rintro ⟨b, hb, -, he⟩
    exact h2 ⟨b, hb, payload_inj.mp he⟩

theorem mem_usedPayloads_freed :
    p ∈ usedPayloads (freed L m R) ↔ p ∈ usedPayloads L ∨ p ∈ usedPayloads R := by
  simp [freed]

theorem Allocates.usedPayloads (h : Allocates r brk B B' q) :
    p ∈ usedPayloads B' ↔ p ∈ Malloc.usedPayloads B ∨ p = q := by
  cases h with
  | reuse L R b hb hr hbest =>
      simp only [mem_usedPayloads_append, mem_usedPayloads_cut, mem_usedPayloads_cons, hb,
        Bool.true_eq_false, false_and, false_or]
      exact or_right_comm
  | grow L b hb hnone => simp [hb, Block.payload]
  | fresh B hlast hnone => simp [Block.payload]

theorem Allocates.notMem (h : Allocates r brk B B' q) (hB : Layout lo B brk) :
    q ∉ Malloc.usedPayloads B := by
  obtain ⟨L, n, R, -, rfl, -, -, hnew⟩ := h.exists_new hB
  rintro ⟨b, hb, hbf, he⟩
  exact hnew b hb hbf (payload_inj.mp he)

theorem Allocates.exists_layout (h : Allocates r brk B B' q) (hB : Layout lo B brk) :
    ∃ hi, Layout lo B' hi := by
  cases h with
  | reuse L R b hb hr hbest =>
      by_cases hsmall : b.size < r + (128 + metaSize)
      · rw [cut_whole hsmall]
        exact ⟨_, hB.replace rfl le_rfl⟩
      · rw [cut_split (by omega)]
        refine ⟨_, hB.split rfl (by simp [Block.fin]) ?_⟩
        simp only [Block.fin]
        omega
  | grow L b hb hnone =>
      obtain ⟨mid, h1, h2, -⟩ := Layout.middle_iff.mp hB
      exact ⟨_, Layout.middle_iff.mpr ⟨mid, h1, h2, le_rfl⟩⟩
  | fresh B hlast hnone =>
      exact ⟨_, Layout.middle_iff.mpr ⟨brk, hB, le_rfl, le_rfl⟩⟩

theorem Reallocates.usedPayloads (h : Reallocates r brk L m R B' q) (hm : m.free = false)
    (hB : Layout lo (L ++ m :: R) brk) :
    p ∈ usedPayloads B' ↔ (p ∈ Malloc.usedPayloads L ∨ p ∈ Malloc.usedPayloads R) ∨ p = q := by
  cases h with
  | inPlace hr =>
      simp only [mem_usedPayloads_append, mem_usedPayloads_cut]
      exact or_right_comm
  | left L' a hL ha hlt hr =>
      subst hL
      simp only [mem_usedPayloads_append, mem_usedPayloads_cut, mem_usedPayloads_cons, ha,
        Bool.true_eq_false, false_and, usedPayloads_nil, or_false, Block.payload]
      exact or_right_comm
  | right R' c hR hc hlt hr =>
      subst hR
      simp only [mem_usedPayloads_append, mem_usedPayloads_cut, mem_usedPayloads_cons, hc,
        Bool.true_eq_false, false_and, false_or, Block.payload]
      exact or_right_comm
  | both L' R' a c hL hR ha hc hlt hr =>
      subst hL hR
      simp only [mem_usedPayloads_append, mem_usedPayloads_cut, mem_usedPayloads_cons, ha, hc,
        Bool.true_eq_false, false_and, false_or, usedPayloads_nil, or_false, Block.payload]
      exact or_right_comm
  | wilderness hR hlt =>
      subst hR
      simp [hm, Block.payload]
  | move L' R' q hlt halloc =>
      obtain ⟨hi', hB'⟩ := halloc.exists_layout hB
      obtain ⟨h1, h2⟩ := hB.payload_notMem
      obtain ⟨h3, h4⟩ := hB'.payload_notMem
      have hq : m.payload ≠ q := fun he => halloc.notMem hB (he ▸ ⟨m, by simp, hm, rfl⟩)
      rw [mem_usedPayloads_freed]
      by_cases hpm : p = m.payload
      · subst hpm
        simp [h1, h2, h3, h4, hq]
      · have := halloc.usedPayloads (p := p)
        simpa [hm, hpm] using this

/-- The block returned is one of the old one's or was not in use. -/
theorem Reallocates.notMem (h : Reallocates r brk L m R B' q)
    (hB : Layout lo (L ++ m :: R) brk) (hq : q ≠ m.payload) :
    q ∉ Malloc.usedPayloads (L ++ m :: R) := by
  have hfree : ∀ a ∈ L ++ m :: R, a.free = true →
      a.payload ∉ Malloc.usedPayloads (L ++ m :: R) := by
    rintro a ha haf ⟨b, hb, hbf, he⟩
    rw [hB.eq_of_addr hb ha (payload_inj.mp he), haf] at hbf
    cases hbf
  cases h with
  | inPlace hr => exact absurd rfl hq
  | left L' a hL ha hlt hr => exact hfree a (by simp [hL]) ha
  | right R' c hR hc hlt hr => exact absurd rfl hq
  | both L' R' a c hL hR ha hc hlt hr => exact hfree a (by simp [hL]) ha
  | wilderness hR hlt => exact absurd rfl hq
  | move L' R' q hlt halloc => exact halloc.notMem hB

end Used

/-! ## Coalescing -/

/-- No two neighbours are both free. -/
def Coalesced (B : List Block) : Prop := B.IsChain fun b c => ¬(b.free = true ∧ c.free = true)

section Coalesced

variable {L R B B' : List Block} {b m : Block} {q r brk : Nat}

theorem freeHeadBytes_eq_zero : freeHeadBytes R = 0 ↔ ∀ c ∈ R.head?, c.free = false := by
  cases R with
  | nil => simp [freeHeadBytes]
  | cons c R => cases hc : c.free <;> simp [freeHeadBytes, hc]

theorem freeLastBytes_eq_zero : freeLastBytes L = 0 ↔ ∀ a ∈ L.getLast?, a.free = false := by
  rw [freeLastBytes, freeHeadBytes_eq_zero, List.head?_reverse]

theorem coalesced_append : Coalesced (L ++ R) ↔
    Coalesced L ∧ Coalesced R ∧ (freeLastBytes L = 0 ∨ freeHeadBytes R = 0) := by
  rw [Coalesced, List.isChain_append]
  refine and_congr_right fun _ => and_congr_right fun _ => ?_
  rw [freeLastBytes_eq_zero, freeHeadBytes_eq_zero]
  rcases List.eq_nil_or_concat L with rfl | ⟨L, a, rfl⟩
  · simp
  · cases R with
    | nil => simp
    | cons c R =>
        cases ha : a.free <;> cases hc : c.free <;> simp [ha, hc]

theorem coalesced_cons : Coalesced (b :: R) ↔
    Coalesced R ∧ (b.free = false ∨ freeHeadBytes R = 0) := by
  have h := coalesced_append (L := [b]) (R := R)
  have h1 : freeLastBytes [b] = 0 ↔ b.free = false := by simp [freeLastBytes_eq_zero]
  rw [h1] at h
  simpa [Coalesced] using h

/-- A split is harmless in front of a block in use. -/
theorem coalesced_cut (hL : Coalesced L) (hR : Coalesced R)
    (hclear : r + (128 + metaSize) ≤ b.size → freeHeadBytes R = 0) :
    Coalesced (L ++ cut b r ++ R) := by
  by_cases hsmall : b.size < r + (128 + metaSize)
  · rw [cut_whole hsmall, coalesced_append, coalesced_cons]
    exact ⟨hL, ⟨hR, .inl rfl⟩, .inr (by simp [freeHeadBytes])⟩
  · rw [cut_split (by omega), coalesced_append, coalesced_cons, coalesced_cons]
    exact ⟨hL, ⟨⟨hR, .inr (hclear (by omega))⟩, .inl rfl⟩, .inr (by simp [freeHeadBytes])⟩

theorem Coalesced.split_at (h : Coalesced (L ++ b :: R)) :
    Coalesced L ∧ Coalesced R ∧
      (b.free = true → freeLastBytes L = 0 ∧ freeHeadBytes R = 0) := by
  obtain ⟨hL, hbR, hmid⟩ := coalesced_append.mp h
  obtain ⟨hR, hbr⟩ := coalesced_cons.mp hbR
  refine ⟨hL, hR, fun hb => ⟨hmid.resolve_right ?_, hbr.resolve_left (by simp [hb])⟩⟩
  simp [freeHeadBytes, hb]

theorem Allocates.coalesced (h : Allocates r brk B B' q) (hB : Coalesced B) : Coalesced B' := by
  cases h with
  | reuse L R b hb hr hbest =>
      obtain ⟨hL, hR, hfree⟩ := hB.split_at
      exact coalesced_cut hL hR fun _ => (hfree hb).2
  | grow L b hb hnone =>
      obtain ⟨hL, -, -⟩ := hB.split_at
      rw [coalesced_append, coalesced_cons]
      exact ⟨hL, ⟨.nil, .inl rfl⟩, .inr (by simp [freeHeadBytes])⟩
  | fresh B hlast hnone =>
      rw [coalesced_append, coalesced_cons]
      exact ⟨hB, ⟨.nil, .inl rfl⟩, .inr (by simp [freeHeadBytes])⟩

theorem coalesced_dropFreeHead (h : Coalesced R) :
    Coalesced (dropFreeHead R) ∧ freeHeadBytes (dropFreeHead R) = 0 := by
  cases R with
  | nil => exact ⟨h, rfl⟩
  | cons c R =>
      obtain ⟨hR, hfree⟩ := coalesced_cons.mp h
      cases hc : c.free with
      | true =>
          simp only [dropFreeHead, hc, if_true]
          exact ⟨hR, hfree.resolve_left (by simp [hc])⟩
      | false =>
          simp only [dropFreeHead, hc, Bool.false_eq_true, if_false]
          exact ⟨h, by simp [freeHeadBytes, hc]⟩

theorem coalesced_dropFreeLast (h : Coalesced L) :
    Coalesced (dropFreeLast L) ∧ freeLastBytes (dropFreeLast L) = 0 := by
  rcases List.eq_nil_or_concat L with rfl | ⟨L, a, rfl⟩
  · exact ⟨h, rfl⟩
  · rw [List.concat_eq_append] at *
    rw [dropFreeLast_concat]
    obtain ⟨hL, -, hfree⟩ := h.split_at
    cases ha : a.free with
    | true => exact ⟨hL, (hfree ha).1⟩
    | false => exact ⟨h, by simp [ha]⟩

/-- Releasing a block leaves no two free neighbours. -/
theorem Coalesced.freed (h : Coalesced (L ++ m :: R)) : Coalesced (Malloc.freed L m R) := by
  obtain ⟨hL, hR, -⟩ := h.split_at
  obtain ⟨hL', hl⟩ := coalesced_dropFreeLast hL
  obtain ⟨hR', hr⟩ := coalesced_dropFreeHead hR
  rw [Malloc.freed, coalesced_append, coalesced_cons]
  exact ⟨hL', ⟨hR', .inr hr⟩, .inl hl⟩

/-- `srealloc` keeps the list coalesced unless it splits, in branch `a` or
`b`, in front of a free block. -/
theorem Reallocates.coalesced (h : Reallocates r brk L m R B' q) (hB : Coalesced (L ++ m :: R))
    (hclear : 0 < freeHeadBytes R →
      (r ≤ m.size → m.size < r + (128 + metaSize)) ∧
      (m.size < r → r ≤ freeLastBytes L + m.size →
        freeLastBytes L + m.size < r + (128 + metaSize))) : Coalesced B' := by
  obtain ⟨hL, hR, -⟩ := hB.split_at
  cases h with
  | inPlace hr =>
      refine coalesced_cut hL hR fun hlarge => ?_
      by_contra hpos
      have := (hclear (Nat.pos_of_ne_zero hpos)).1 hr
      omega
  | left L' a hL' ha hlt hr =>
      subst hL'
      rw [freeLastBytes_concat, ha] at hclear
      simp only [if_true] at hclear
      refine coalesced_cut (coalesced_append.mp hL).1 hR fun hlarge => ?_
      by_contra hpos
      have := (hclear (Nat.pos_of_ne_zero hpos)).2 hlt (by omega)
      simp only at hlarge
      omega
  | right R' c hR' hc hlt hr =>
      subst hR'
      obtain ⟨hR'', hfree⟩ := coalesced_cons.mp hR
      exact coalesced_cut hL hR'' fun _ => hfree.resolve_left (by simp [hc])
  | both L' R' a c hL' hR' ha hc hlt hr =>
      subst hL' hR'
      obtain ⟨hR'', hfree⟩ := coalesced_cons.mp hR
      exact coalesced_cut (coalesced_append.mp hL).1 hR'' fun _ =>
        hfree.resolve_left (by simp [hc])
  | wilderness hR' hlt =>
      subst hR'
      rw [coalesced_append, coalesced_cons] at *
      simpa [freeHeadBytes] using hB
  | move L' R' q hlt halloc => exact (halloc.coalesced hB).freed

end Coalesced

/-! ## Alignment -/

/-- Header and size of a block are multiples of eight, and it is not empty. -/
def Block.Aligned (b : Block) : Prop := 8 ∣ b.addr ∧ 8 ∣ b.size ∧ 0 < b.size

section Aligned

variable {L R B B' : List Block} {a b m : Block} {q r brk : Nat}

theorem dvd_totalBytes (h : ∀ b ∈ B, b.Aligned) : 8 ∣ totalBytes B := by
  refine List.dvd_sum fun x hx => ?_
  obtain ⟨b, hb, rfl⟩ := List.mem_map.mp hx
  have hms : metaSize = 48 := rfl
  have hsize := (h b hb).2.1
  unfold Block.bytes
  omega

theorem forall_mem_split : (∀ b ∈ L ++ m :: R, b.Aligned) ↔
    (∀ b ∈ L, b.Aligned) ∧ m.Aligned ∧ ∀ b ∈ R, b.Aligned := by
  rw [List.forall_mem_append, List.forall_mem_cons]

/-- Absorbing a block and its header. -/
theorem Block.Aligned.absorb (hb : b.Aligned) (ha : a.Aligned) (free : Bool) :
    Block.Aligned ⟨b.addr, b.size + (a.size + metaSize), free⟩ := by
  have hms : metaSize = 48 := rfl
  obtain ⟨h1, h2, h3⟩ := hb
  obtain ⟨-, h4, -⟩ := ha
  refine ⟨h1, ?_, ?_⟩ <;> dsimp only <;> omega

theorem aligned_cut (hb : b.Aligned) (hr : 8 ∣ r) (h0 : 0 < r) : ∀ c ∈ cut b r, c.Aligned := by
  have hms : metaSize = 48 := rfl
  obtain ⟨h1, h2, h3⟩ := hb
  unfold cut
  split
  · exact List.forall_mem_singleton.mpr ⟨h1, h2, h3⟩
  · refine List.forall_mem_cons.mpr ⟨⟨h1, hr, h0⟩, List.forall_mem_singleton.mpr ⟨?_, ?_, ?_⟩⟩ <;>
      dsimp only <;> omega

theorem forall_mem_cut (hL : ∀ b ∈ L, b.Aligned) (hb : b.Aligned) (hR : ∀ b ∈ R, b.Aligned)
    (hr : 8 ∣ r) (h0 : 0 < r) : ∀ c ∈ L ++ cut b r ++ R, c.Aligned :=
  List.forall_mem_append.mpr ⟨List.forall_mem_append.mpr ⟨hL, aligned_cut hb hr h0⟩, hR⟩

theorem Allocates.aligned (h : Allocates r brk B B' q) (hB : ∀ b ∈ B, b.Aligned)
    (hbrk : 8 ∣ brk) (hr : 8 ∣ r) (h0 : 0 < r) : ∀ b ∈ B', b.Aligned := by
  cases h with
  | reuse L R b hb hle hbest =>
      obtain ⟨hL, hb, hR⟩ := forall_mem_split.mp hB
      exact forall_mem_cut hL hb hR hr h0
  | grow L b hb hnone =>
      obtain ⟨hL, hb, -⟩ := forall_mem_split.mp hB
      exact forall_mem_split.mpr ⟨hL, ⟨hb.1, hr, h0⟩, by simp⟩
  | fresh B hlast hnone =>
      exact forall_mem_split.mpr ⟨hB, ⟨hbrk, hr, h0⟩, by simp⟩

/-- A released block and what it is joined with. -/
theorem forall_mem_freed (h : ∀ b ∈ L ++ m :: R, b.Aligned) : ∀ b ∈ freed L m R, b.Aligned := by
  obtain ⟨hL, hm, hR⟩ := forall_mem_split.mp h
  have hms : metaSize = 48 := rfl
  have hright : 8 ∣ freeHeadBytes R ∧ ∀ b ∈ dropFreeHead R, b.Aligned := by
    cases R with
    | nil => exact ⟨Nat.dvd_zero 8, hR⟩
    | cons c R =>
        obtain ⟨hc, hR⟩ := List.forall_mem_cons.mp hR
        have := hc.2.1
        cases hcf : c.free <;> simp only [freeHeadBytes, dropFreeHead, hcf, if_true,
          Bool.false_eq_true, if_false]
        · exact ⟨Nat.dvd_zero 8, List.forall_mem_cons.mpr ⟨hc, hR⟩⟩
        · exact ⟨by omega, hR⟩
  have hleft : (8 ∣ freeLastBytes L ∧ 8 ∣ joinAddr L m) ∧ ∀ b ∈ dropFreeLast L, b.Aligned := by
    rcases List.eq_nil_or_concat L with rfl | ⟨L, a, rfl⟩
    · exact ⟨⟨Nat.dvd_zero 8, hm.1⟩, hL⟩
    · rw [List.concat_eq_append] at *
      have ha := hL a (by simp)
      have := ha.2.1
      rw [freeLastBytes_concat, joinAddr_concat, dropFreeLast_concat]
      cases haf : a.free <;> simp only [if_true, Bool.false_eq_true, if_false]
      · exact ⟨⟨Nat.dvd_zero 8, hm.1⟩, hL⟩
      · exact ⟨⟨by omega, ha.1⟩, fun b hb => hL b (List.mem_append_left _ hb)⟩
  obtain ⟨-, hsize, hpos⟩ := hm
  refine forall_mem_split.mpr ⟨hleft.2, ⟨hleft.1.2, ?_, ?_⟩, hright.2⟩ <;> dsimp only <;> omega

theorem Reallocates.aligned (h : Reallocates r brk L m R B' q) (hB : ∀ b ∈ L ++ m :: R, b.Aligned)
    (hbrk : 8 ∣ brk) (hr : 8 ∣ r) (h0 : 0 < r) : ∀ b ∈ B', b.Aligned := by
  obtain ⟨hL, hm, hR⟩ := forall_mem_split.mp hB
  cases h with
  | inPlace hle => exact forall_mem_cut hL hm hR hr h0
  | left L' a hL' ha hlt hle =>
      subst hL'
      obtain ⟨hL', ha, -⟩ := forall_mem_split.mp hL
      exact forall_mem_cut hL' (ha.absorb hm false) hR hr h0
  | right R' c hR' hc hlt hle =>
      subst hR'
      obtain ⟨hc, hR'⟩ := List.forall_mem_cons.mp hR
      exact forall_mem_cut hL (hm.absorb hc false) hR' hr h0
  | both L' R' a c hL' hR' ha hc hlt hle =>
      subst hL' hR'
      obtain ⟨hL', ha, -⟩ := forall_mem_split.mp hL
      obtain ⟨hc, hR'⟩ := List.forall_mem_cons.mp hR
      exact forall_mem_cut hL' (ha.absorb (hm.absorb hc false) false) hR' hr h0
  | wilderness hR' hlt =>
      exact forall_mem_split.mpr ⟨hL, ⟨hm.1, hr, h0⟩, by simp⟩
  | move L' R' q hlt halloc => exact forall_mem_freed (halloc.aligned hB hbrk hr h0)

end Aligned

end OsAllHw.Malloc
