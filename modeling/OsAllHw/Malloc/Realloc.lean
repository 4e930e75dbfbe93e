import OsAllHw.Malloc.Free

/-!
# `srealloc`

`Reallocates` lists the ways a block below `MMAP_SIZE` can be resized:
in place, into the free left or right neighbour or both, by moving the
break, or by moving the block. Which way is taken is decided by three
numbers: the bytes the left neighbour, the block and the right neighbour
would contribute. The same numbers say when the histogram index stays in
range (`ReallocFits`) and when branch `d` is taken (`BranchD`).
-/

namespace OsAllHw.Malloc

open Lib

/-- Branches `a` to `f` of `srealloc` for a request of `r` bytes, from the
list `L ++ m :: R`. -/
inductive Reallocates (r brk : Nat) (L : List Block) (m : Block) (R : List Block) :
    List Block → Nat → Prop where
  | inPlace (hr : r ≤ m.size) : Reallocates r brk L m R (L ++ cut m r ++ R) m.payload
  | left (L' : List Block) (a : Block) (hL : L = L' ++ [a]) (ha : a.free = true)
      (hlt : m.size < r) (hr : r ≤ a.size + (m.size + metaSize)) :
      Reallocates r brk L m R
        (L' ++ cut ⟨a.addr, a.size + (m.size + metaSize), false⟩ r ++ R) a.payload
  | right (R' : List Block) (c : Block) (hR : R = c :: R') (hc : c.free = true)
      (hlt : m.size < r) (hr : r ≤ m.size + (c.size + metaSize)) :
      Reallocates r brk L m R
        (L ++ cut ⟨m.addr, m.size + (c.size + metaSize), false⟩ r ++ R') m.payload
  | both (L' R' : List Block) (a c : Block) (hL : L = L' ++ [a]) (hR : R = c :: R')
      (ha : a.free = true) (hc : c.free = true) (hlt : m.size < r)
      (hr : r ≤ a.size + (m.size + (c.size + metaSize) + metaSize)) :
      Reallocates r brk L m R
        (L' ++ cut ⟨a.addr, a.size + (m.size + (c.size + metaSize) + metaSize), false⟩ r ++ R')
        a.payload
  | wilderness (hR : R = []) (hlt : m.size < r) :
      Reallocates r brk L m R (L ++ [{ m with size := r }]) m.payload
  | move (L' R' : List Block) (q : Nat) (hlt : m.size < r)
      (halloc : Allocates r brk (L ++ m :: R) (L' ++ m :: R') q) :
      Reallocates r brk L m R (freed L' m R') q

/-- The merged block of the branch taken is below `MMAP_SIZE`. -/
def ReallocFits (left size right r : Nat) : Prop :=
  size < r →
    if r ≤ left + size then left + size < mmapSize
    else if r ≤ size + right then size + right < mmapSize
    else r ≤ left + size + right → left + size + right < mmapSize

instance (left size right r : Nat) : Decidable (ReallocFits left size right r) := by
  unfold ReallocFits; infer_instance

/-- Neither neighbour is enough alone, both together are. -/
def BranchD (left size right r : Nat) : Prop :=
  left + size < r ∧ size + right < r ∧ r ≤ left + size + right

instance (left size right r : Nat) : Decidable (BranchD left size right r) := by
  unfold BranchD; infer_instance

theorem round_round (v : Version) (size : Nat) : v.round (v.round size) = v.round size := by
  cases v with
  | malloc3 => rfl
  | malloc4 =>
      simp only [Version.round, roundUp, sizeT]
      split_ifs <;> omega

/-! ## The guards -/

section Guards

variable {os : Os} {s : Heap} {L R : List Block} {a b c m : Block} {r : Nat}

theorem exists_free_last (h : 0 < freeLastBytes L) :
    ∃ L' a, L = L' ++ [a] ∧ a.free = true ∧ freeLastBytes L = a.size + metaSize := by
  rcases List.eq_nil_or_concat L with rfl | ⟨L', a, rfl⟩
  · simp at h
  · rw [List.concat_eq_append] at *
    refine ⟨L', a, rfl, ?_⟩
    cases ha : a.free with
    | true => simp [ha]
    | false => simp [ha] at h

theorem exists_free_head (h : 0 < freeHeadBytes R) :
    ∃ R' c, R = c :: R' ∧ c.free = true ∧ freeHeadBytes R = c.size + metaSize := by
  cases R with
  | nil => simp [freeHeadBytes] at h
  | cons c R' =>
      refine ⟨R', c, rfl, ?_⟩
      cases hc : c.free with
      | true => simp [freeHeadBytes, hc]
      | false => simp [freeHeadBytes, hc] at h

theorem Rep.addr_ne_zero {B : List Block} (h : Rep os s B) (hb : b ∈ B) : b.addr ≠ 0 :=
  fun h0 => h.core.headers.zero_notMem (h0 ▸ mem_heads hb)

/-- The guard of branch `b`. -/
theorem Rep.guard_left (h : Rep os s (L ++ m :: R)) (hlt : m.size < r) :
    (s.get .listPrev m.addr ≠ 0 ∧
      sizeT (s.get .size (s.get .listPrev m.addr) + s.get .size m.addr + metaSize) ≥ r ∧
      s.isFree (s.get .listPrev m.addr) = true) ↔ r ≤ freeLastBytes L + m.size := by
  have hms : metaSize = 48 := rfl
  have hmm : mmapSize = 131072 := rfl
  have hm := h.small m (by simp)
  rw [h.core.size m (by simp), h.core.links.1]
  rcases List.eq_nil_or_concat L with rfl | ⟨L, a, rfl⟩
  · simp only [lastAddr_nil, freeLastBytes_nil, ne_eq, not_true_eq_false, false_and, false_iff]
    omega
  · rw [List.concat_eq_append] at *
    have hmem : a ∈ L ++ [a] ++ m :: R := by simp
    have ha := h.small a hmem
    rw [lastAddr_concat, h.core.size a hmem, h.core.flag a hmem, sizeT_of_lt (by omega),
      freeLastBytes_concat]
    have ha0 := h.addr_ne_zero hmem
    cases haf : a.free with
    | true =>
        simp only [ne_eq, ha0, not_false_eq_true, and_true, true_and, if_true]
        omega
    | false =>
        simp only [Bool.false_eq_true, and_false, if_false, false_iff]
        omega

/-- The guard of branch `c`. -/
theorem Rep.guard_right (h : Rep os s (L ++ m :: R)) (hlt : m.size < r) :
    (s.get .listNext m.addr ≠ 0 ∧
      sizeT (s.get .size (s.get .listNext m.addr) + s.get .size m.addr + metaSize) ≥ r ∧
      s.isFree (s.get .listNext m.addr) = true) ↔ r ≤ m.size + freeHeadBytes R := by
  have hms : metaSize = 48 := rfl
  have hmm : mmapSize = 131072 := rfl
  have hm := h.small m (by simp)
  rw [h.core.size m (by simp), h.core.links.2]
  cases R with
  | nil =>
      simp only [firstAddr_nil, freeHeadBytes, ne_eq, not_true_eq_false, false_and, false_iff]
      omega
  | cons c R =>
      have hmem : c ∈ L ++ m :: c :: R := by simp
      have hc := h.small c hmem
      rw [firstAddr_cons, h.core.size c hmem, h.core.flag c hmem, sizeT_of_lt (by omega)]
      have hc0 := h.addr_ne_zero hmem
      cases hcf : c.free with
      | true =>
          simp only [freeHeadBytes, hcf, ne_eq, hc0, not_false_eq_true, and_true, true_and,
            if_true]
          omega
      | false =>
          simp only [freeHeadBytes, hcf, Bool.false_eq_true, and_false, if_false, false_iff]
          omega

/-- The guard of branch `d`, once `b` and `c` have been ruled out. -/
theorem Rep.guard_both (h : Rep os s (L ++ m :: R))
    (hl : freeLastBytes L + m.size < r) (hr : m.size + freeHeadBytes R < r) :
    (s.get .listPrev m.addr ≠ 0 ∧ s.get .listNext m.addr ≠ 0 ∧
      sizeT (s.get .size (s.get .listPrev m.addr) + s.get .size (s.get .listNext m.addr) +
        s.get .size m.addr + 2 * metaSize) ≥ r ∧
      s.isFree (s.get .listNext m.addr) = true ∧ s.isFree (s.get .listPrev m.addr) = true) ↔
      r ≤ freeLastBytes L + m.size + freeHeadBytes R := by
  have hms : metaSize = 48 := rfl
  have hmm : mmapSize = 131072 := rfl
  have hm := h.small m (by simp)
  rw [h.core.size m (by simp), h.core.links.1, h.core.links.2]
  rcases List.eq_nil_or_concat L with rfl | ⟨L, a, rfl⟩
  · simp only [lastAddr_nil, freeLastBytes_nil, ne_eq, not_true_eq_false, false_and, false_iff]
    omega
  rw [List.concat_eq_append] at *
  cases R with
  | nil =>
      simp only [firstAddr_nil, freeHeadBytes, ne_eq, not_true_eq_false, false_and, and_false,
        false_iff]
      omega
  | cons c R =>
      have hmema : a ∈ L ++ [a] ++ m :: c :: R := by simp
      have hmemc : c ∈ L ++ [a] ++ m :: c :: R := by simp
      have ha := h.small a hmema
      have hc := h.small c hmemc
      have ha0 := h.addr_ne_zero hmema
      have hc0 := h.addr_ne_zero hmemc
      rw [lastAddr_concat, firstAddr_cons, h.core.size a hmema, h.core.size c hmemc,
        h.core.flag a hmema, h.core.flag c hmemc, sizeT_of_lt (by omega)]
      rw [freeLastBytes_concat] at hl ⊢
      simp only [freeHeadBytes] at hr ⊢
      cases haf : a.free with
      | false =>
          simp only [Bool.false_eq_true, and_false, if_false, false_iff]
          omega
      | true =>
          cases hcf : c.free with
          | false =>
              simp only [Bool.false_eq_true, false_and, and_false, if_false, false_iff]
              simp only [haf, if_true] at hl ⊢
              omega
          | true =>
              simp only [ne_eq, ha0, hc0, not_false_eq_true, and_true, true_and, if_true]
              omega

end Guards

/-! ## Merging for a reallocation -/

/-- Where the `n` bytes at `p` are found after `srealloc` answered `x`: as
many as `r` of them at the new pointer, or all of them still at `p`. -/
structure Kept (s : Heap) (p n r : Nat) (x : Nat × Heap) : Prop where
  moved : x.1 ≠ 0 → Copied s x.2 p x.1 (min n r)
  stayed : x.1 = 0 → Copied s x.2 p p n

namespace Kept

variable {s s' : Heap} {p q n r : Nat}

theorem null (h : Copied s s' p p n) : Kept s p n r (0, s') :=
  ⟨fun h0 => absurd rfl h0, fun _ => h⟩

theorem block (hq : q ≠ 0) (h : Copied s s' p q (min n r)) : Kept s p n r (q, s') :=
  ⟨fun _ => h, fun h0 => absurd h0 hq⟩

end Kept

section Merges

variable {os : Os} {s : Heap} {L R : List Block} {a b c m : Block} {r : Nat}

/-- The end of branches `b` to `d`. -/
theorem Rep.splitIfLarge (h : Rep os s (L ++ b :: R)) (own : Set Nat) (hb : b.free = false)
    (hr : r ≤ b.size) (hown : b.addr ∈ own) :
    ∃ s', Malloc.splitIfLarge s b.addr r = .ok (b.payload, s') ∧
      Rep os s' (L ++ cut b r ++ R) ∧ Keeps os own (L ++ b :: R) (L ++ cut b r ++ R) s s' ∧
      Copied s s' b.payload b.payload r := by
  rw [Malloc.splitIfLarge, h.core.subT_size (by simp) hr]
  by_cases hsmall : b.size < r + (128 + metaSize)
  · have hbeta : ({ b with free := false } : Block) = b := by rw [← hb]
    rw [if_neg (by omega), cut_whole hsmall, hbeta]
    exact ⟨s, rfl, h, .refl _ _ _, .refl _ _ _⟩
  · obtain ⟨s', hrun, hrep, hkeeps, htame⟩ := h.split_keeps (r := r) own (by omega) (.inr hown)
    rw [if_pos (by omega), hrun, cut_split (by omega)]
    exact ⟨s', rfl, hrep, hkeeps, h.core.copied (by simp) htame hr le_rfl⟩

/-- The `unite_srealloc` of branch `b`. -/
theorem Rep.uniteLeft (h : Rep os s (L ++ a :: m :: R)) (ha : a.free = true)
    (hm : m.free = false) :
    (a.size + (m.size + metaSize) < mmapSize →
      ∃ s', uniteSrealloc s m.addr a.addr false = .ok s' ∧
        Rep os s' (L ++ ⟨a.addr, a.size + (m.size + metaSize), true⟩ :: R) ∧
        Keeps os {m.addr} (L ++ a :: m :: R)
          (L ++ ⟨a.addr, a.size + (m.size + metaSize), true⟩ :: R) s s' ∧
        Tame (heads (L ++ a :: m :: R)) s s' ∧ s'.get .size m.addr = m.size) ∧
    (mmapSize ≤ a.size + (m.size + metaSize) →
      uniteSrealloc s m.addr a.addr false = .error .addIndex) := by
  have hcut : L ++ a :: m :: R = (L ++ [a]) ++ m :: R := by simp
  have hcut' : (L ++ [a]) ++ { m with free := true } :: R =
      L ++ a :: { m with free := true } :: R := by simp
  rw [hcut] at h
  obtain ⟨s1, hrun1, hrep1, hkeeps1, htame1⟩ := h.markFree_keeps hm
  have hheads := heads_replace (L := L ++ [a]) (R := R) m { m with free := true } rfl
  rw [← hcut, hcut'] at hkeeps1 hheads
  rw [← hcut] at htame1
  rw [hcut'] at hrep1
  have hrun : uniteSrealloc s m.addr a.addr false = uniteRight s1 a.addr := by
    simp [uniteSrealloc, hrun1]
  rw [hrun]
  refine ⟨fun hfit => ?_, hrep1.unite_error ha rfl⟩
  obtain ⟨s2, hrun2, hrep2, hkeeps2, htame2, hstale⟩ := hrep1.unite_keeps ha rfl hfit
  exact ⟨s2, hrun2, hrep2, hkeeps1.trans (hkeeps2.mono (Set.empty_subset _)),
    htame1.trans (hheads ▸ htame2), hstale⟩

/-- The `unite_srealloc` of branch `c`, and the first one of branch `d`. -/
theorem Rep.uniteSelf (h : Rep os s (L ++ m :: c :: R)) (hm : m.free = false)
    (hc : c.free = true) :
    (m.size + (c.size + metaSize) < mmapSize →
      ∃ s', uniteSrealloc s m.addr m.addr false = .ok s' ∧
        Rep os s' (L ++ ⟨m.addr, m.size + (c.size + metaSize), true⟩ :: R) ∧
        Keeps os {m.addr} (L ++ m :: c :: R)
          (L ++ ⟨m.addr, m.size + (c.size + metaSize), true⟩ :: R) s s' ∧
        Tame (heads (L ++ m :: c :: R)) s s') ∧
    (mmapSize ≤ m.size + (c.size + metaSize) →
      uniteSrealloc s m.addr m.addr false = .error .addIndex) := by
  obtain ⟨s1, hrun1, hrep1, hkeeps1, htame1⟩ := h.markFree_keeps hm
  have hheads := heads_replace (L := L) (R := c :: R) m { m with free := true } rfl
  have hrun : uniteSrealloc s m.addr m.addr false = uniteRight s1 m.addr := by
    simp [uniteSrealloc, hrun1]
  rw [hrun]
  refine ⟨fun hfit => ?_, hrep1.unite_error rfl hc⟩
  obtain ⟨s2, hrun2, hrep2, hkeeps2, htame2, -⟩ := hrep1.unite_keeps rfl hc hfit
  exact ⟨s2, hrun2, hrep2, hkeeps1.trans (hkeeps2.mono (Set.empty_subset _)),
    htame1.trans (hheads ▸ htame2)⟩

/-- The second `unite_srealloc` of branch `d`: the block is free already. -/
theorem Rep.uniteAgain (h : Rep os s (L ++ a :: m :: R)) (ha : a.free = true)
    (hm : m.free = true) :
    (a.size + (m.size + metaSize) < mmapSize →
      ∃ s', uniteSrealloc s m.addr a.addr true = .ok s' ∧
        Rep os s' (L ++ ⟨a.addr, a.size + (m.size + metaSize), true⟩ :: R) ∧
        Keeps os ∅ (L ++ a :: m :: R)
          (L ++ ⟨a.addr, a.size + (m.size + metaSize), true⟩ :: R) s s' ∧
        Tame (heads (L ++ a :: m :: R)) s s' ∧ s'.get .size m.addr = m.size) ∧
    (mmapSize ≤ a.size + (m.size + metaSize) →
      uniteSrealloc s m.addr a.addr true = .error .addIndex) := by
  have hmH : m.addr ∈ heads (L ++ a :: m :: R) := mem_heads (by simp)
  have hcore : Core os (s.put .isFree m.addr 1) (L ++ a :: m :: R) := by
    have hset := (show Core os s ((L ++ [a]) ++ m :: R) by simpa using h.core).setFree true
    have hmeta : ({ m with free := true } : Block) = m := by rw [← hm]
    rw [hmeta] at hset
    simpa using hset
  have hrep1 : Rep os (s.put .isFree m.addr 1) (L ++ a :: m :: R) :=
    ⟨hcore, h.small, h.binned.setFree h.core.headers freeHeads_subset hmH true⟩
  have hkeeps1 : Keeps os ∅ (L ++ a :: m :: R) (L ++ a :: m :: R) s (s.put .isFree m.addr 1) :=
    (Tame.put s _ _ hmH).keeps h.core hcore Set.subset_union_left (fun b hb _ _ => hb) rfl
      fun k _ hk => hk
  have hrun : uniteSrealloc s m.addr a.addr true = uniteRight (s.put .isFree m.addr 1) a.addr := by
    simp [uniteSrealloc]
  rw [hrun]
  refine ⟨fun hfit => ?_, hrep1.unite_error ha hm⟩
  obtain ⟨s2, hrun2, hrep2, hkeeps2, htame2, hstale⟩ := hrep1.unite_keeps ha hm hfit
  exact ⟨s2, hrun2, hrep2, hkeeps1.trans hkeeps2, (Tame.put s _ _ hmH).trans htame2, hstale⟩

/-- A `memmove` to the front of a block. -/
theorem Rep.memmove (h : Rep os s (L ++ b :: R)) (own : Set Nat) (src : Nat) {n : Nat}
    (hn : n ≤ b.size) (hown : b.free = true ∨ b.addr ∈ own) :
    Rep os (s.memmove b.payload src n) (L ++ b :: R) ∧
      Keeps os own (L ++ b :: R) (L ++ b :: R) s (s.memmove b.payload src n) := by
  refine h.writeIn own (fun x hx => Mem.copyBytes_of_outside _ ?_) hown
  unfold Block.fin at hx
  unfold Block.payload at *
  omega

/-- A free block of the list is nobody's business. -/
theorem Keeps.disown {B B' : List Block} {s' : Heap}
    (h : Keeps os ({a.addr, m.addr} : Set Nat) B B' s s') (hB : Core os s B) (ha : a ∈ B)
    (haf : a.free = true) : Keeps os ({m.addr} : Set Nat) B B' s s' := by
  refine h.reown ?_
  rintro b hb hbf (he | he)
  · rw [hB.layout.eq_of_addr hb ha he, haf] at hbf
    cases hbf
  · exact he

/-- A block that was merged into its left neighbour keeps its bytes and its
stale header while the headers of the list are written. -/
theorem Core.merged_away {s2 s3 : Heap} {n : Nat} {f : Bool} (h : Core os s (L ++ a :: m :: R))
    (htame : Tame (heads (L ++ ⟨a.addr, n, f⟩ :: R)) s2 s3) :
    s3.get .size m.addr = s2.get .size m.addr ∧ Copied s2 s3 m.payload m.payload m.size := by
  have hcut : L ++ a :: m :: R = (L ++ [a]) ++ m :: R := by simp
  have hsub : heads (L ++ ⟨a.addr, n, f⟩ :: R) ⊆ heads (L ++ a :: m :: R) := by
    intro x hx
    simp only [mem_heads_append, mem_heads_cons] at hx ⊢
    exact hx.imp_right (Or.imp_right Or.inr)
  have hout : m.addr ∉ heads (L ++ ⟨a.addr, n, f⟩ :: R) := by
    have hmid := (hcut ▸ h.layout).addr_notMem
    rw [mem_heads_append, mem_heads_cons] at hmid ⊢
    rintro (hx | hx | hx)
    · exact hmid.1 (.inl hx)
    · exact hmid.1 (.inr (.inl hx))
    · exact hmid.2 hx
  refine ⟨htame.get_off_list h.headers hsub (mem_heads (by simp)) hout .size, ?_⟩
  intro i hi
  refine htame.frame _ fun hx => ?_
  refine payload_notMem_headerBytes h.layout (b := m) (by simp) (Nat.le_add_right _ i) ?_
    (headerBytes_mono hsub hx)
  unfold Block.payload Block.fin
  omega

/-- Branch `b`. -/
theorem Rep.branch_left (h : Rep os s (L ++ a :: m :: R)) (ha : a.free = true)
    (hm : m.free = false) (hr : r ≤ a.size + (m.size + metaSize)) :
    (a.size + (m.size + metaSize) < mmapSize →
      ∃ s', (do
          let s ← uniteSrealloc s m.addr a.addr false
          let s ← removeNodeHisto (s.memmove (a.addr + metaSize) m.payload
            (min (s.get .size m.addr) (s.get .size a.addr))) a.addr
          Malloc.splitIfLarge (s.put .isFree a.addr 0) a.addr r) = .ok (a.payload, s') ∧
        Rep os s' (L ++ cut ⟨a.addr, a.size + (m.size + metaSize), false⟩ r ++ R) ∧
        Keeps os {m.addr} (L ++ a :: m :: R)
          (L ++ cut ⟨a.addr, a.size + (m.size + metaSize), false⟩ r ++ R) s s' ∧
        Copied s s' m.payload a.payload (min m.size r)) ∧
    (mmapSize ≤ a.size + (m.size + metaSize) →
      uniteSrealloc s m.addr a.addr false = .error .addIndex) := by
  obtain ⟨hfit, hlarge⟩ := h.uniteLeft ha hm
  refine ⟨fun hsmall => ?_, hlarge⟩
  obtain ⟨s1, hrun1, hrep1, hkeeps1, htame1, hstale⟩ := hfit hsmall
  have hle : m.size ≤ a.size + (m.size + metaSize) := by omega
  have hmin : min (s1.get .size m.addr) (s1.get .size a.addr) = m.size := by
    rw [hstale, hrep1.core.size ⟨a.addr, a.size + (m.size + metaSize), true⟩ (by simp)]
    exact Nat.min_eq_left hle
  obtain ⟨hrep2, hkeeps2⟩ := hrep1.memmove {a.addr, m.addr} m.payload (n := m.size) hle (.inl rfl)
  obtain ⟨s3, hrun3, hrep3, hkeeps3, htame3⟩ := hrep2.take_keeps rfl
  obtain ⟨s4, hrun4, hrep4, hkeeps4, hcopy4⟩ := hrep3.splitIfLarge {a.addr, m.addr} rfl hr
    (.inl rfl)
  have hcopy1 : Copied s s1 m.payload m.payload m.size :=
    h.core.copied_heads (by simp) htame1 le_rfl
  have hcopy2 : Copied s1 (s1.memmove a.payload m.payload m.size) m.payload a.payload m.size :=
    memmove_copied s1 a.payload m.payload (le_refl m.size)
  have hcopy3 : Copied (s1.memmove a.payload m.payload m.size) (s3.put .isFree a.addr 0)
      a.payload a.payload m.size :=
    hrep2.core.copied_heads (b := ⟨a.addr, a.size + (m.size + metaSize), true⟩) (by simp) htame3
      hle
  refine ⟨s4, ?_, hrep4, ?_, ?_⟩
  · simp only [Block.payload] at hrun3 hrun4
    rw [hrun1, ok_bind, hmin, Block.payload, hrun3, ok_bind, hrun4]
    rfl
  · exact ((((hkeeps1.mono (by simp)).trans hkeeps2).trans
      (hkeeps3.mono (Set.empty_subset _))).trans hkeeps4).disown h.core (by simp) ha
  · exact (((hcopy1.trans hcopy2).trans hcopy3).mono (Nat.min_le_left _ _)).trans
      (hcopy4.mono (Nat.min_le_right _ _))

/-- Branch `c`. -/
theorem Rep.branch_right (h : Rep os s (L ++ m :: c :: R)) (hm : m.free = false)
    (hc : c.free = true) (hr : r ≤ m.size + (c.size + metaSize)) :
    (m.size + (c.size + metaSize) < mmapSize →
      ∃ s', (do
          let s ← uniteSrealloc s m.addr m.addr false
          let s ← removeNodeHisto s m.addr
          Malloc.splitIfLarge (s.put .isFree m.addr 0) m.addr r) = .ok (m.payload, s') ∧
        Rep os s' (L ++ cut ⟨m.addr, m.size + (c.size + metaSize), false⟩ r ++ R) ∧
        Keeps os {m.addr} (L ++ m :: c :: R)
          (L ++ cut ⟨m.addr, m.size + (c.size + metaSize), false⟩ r ++ R) s s' ∧
        Copied s s' m.payload m.payload (min m.size r)) ∧
    (mmapSize ≤ m.size + (c.size + metaSize) →
      uniteSrealloc s m.addr m.addr false = .error .addIndex) := by
  obtain ⟨hfit, hlarge⟩ := h.uniteSelf hm hc
  refine ⟨fun hsmall => ?_, hlarge⟩
  obtain ⟨s1, hrun1, hrep1, hkeeps1, htame1⟩ := hfit hsmall
  obtain ⟨s2, hrun2, hrep2, hkeeps2, htame2⟩ := hrep1.take_keeps rfl
  obtain ⟨s3, hrun3, hrep3, hkeeps3, hcopy3⟩ := hrep2.splitIfLarge {m.addr} rfl hr rfl
  have hcopy1 : Copied s s1 m.payload m.payload m.size :=
    h.core.copied_heads (by simp) htame1 le_rfl
  have hcopy2 : Copied s1 (s2.put .isFree m.addr 0) m.payload m.payload m.size :=
    hrep1.core.copied_heads (b := ⟨m.addr, m.size + (c.size + metaSize), true⟩) (by simp) htame2
      (Nat.le_add_right _ _)
  refine ⟨s3, ?_, hrep3, (hkeeps1.trans (hkeeps2.mono (Set.empty_subset _))).trans hkeeps3, ?_⟩
  · rw [hrun1, ok_bind, hrun2, ok_bind, hrun3]
    rfl
  · exact ((hcopy1.trans hcopy2).mono (Nat.min_le_left _ _)).trans
      (hcopy3.mono (Nat.min_le_right _ _))

/-- Branch `d` of `malloc_4.cpp`; the overflow is in both files. -/
theorem Rep.branch_both (h : Rep os s (L ++ a :: m :: c :: R)) (ha : a.free = true)
    (hm : m.free = false) (hc : c.free = true)
    (hmid : m.size + (c.size + metaSize) < mmapSize)
    (hr : r ≤ a.size + (m.size + (c.size + metaSize) + metaSize)) :
    (a.size + (m.size + (c.size + metaSize) + metaSize) < mmapSize →
      ∃ s', (do
          let s ← uniteSrealloc s m.addr m.addr false
          let s ← uniteSrealloc s m.addr a.addr true
          let s ← removeNodeHisto s a.addr
          let s := s.put .isFree a.addr 0
          Malloc.splitIfLarge (s.memmove (a.addr + metaSize) m.payload
            (min (s.get .size m.addr) (s.get .size a.addr))) a.addr r) = .ok (a.payload, s') ∧
        Rep os s'
          (L ++ cut ⟨a.addr, a.size + (m.size + (c.size + metaSize) + metaSize), false⟩ r ++ R) ∧
        Keeps os {m.addr} (L ++ a :: m :: c :: R)
          (L ++ cut ⟨a.addr, a.size + (m.size + (c.size + metaSize) + metaSize), false⟩ r ++ R)
          s s' ∧
        Copied s s' m.payload a.payload (min m.size r)) ∧
    (mmapSize ≤ a.size + (m.size + (c.size + metaSize) + metaSize) →
      (uniteSrealloc s m.addr m.addr false >>= fun s => uniteSrealloc s m.addr a.addr true) =
        .error .addIndex) := by
  have hcut : L ++ a :: m :: c :: R = (L ++ [a]) ++ m :: c :: R := by simp
  have hcut' : ∀ x : Block, (L ++ [a]) ++ x :: R = L ++ a :: x :: R := fun x => by simp
  have h' := h
  rw [hcut] at h'
  obtain ⟨s1, hrun1, hrep1, hkeeps1, htame1⟩ := (h'.uniteSelf hm hc).1 hmid
  rw [hcut'] at hrep1
  rw [← hcut, hcut'] at hkeeps1
  obtain ⟨hfit, hlarge⟩ := hrep1.uniteAgain ha rfl
  refine ⟨fun hsmall => ?_, fun hbig => ?_⟩
  · obtain ⟨s2, hrun2, hrep2, hkeeps2, htame2, hstale⟩ := hfit hsmall
    obtain ⟨s3, hrun3, hrep3, hkeeps3, htame3⟩ := hrep2.take_keeps rfl
    -- `oldp->size` is read from a header that is off the list by now
    obtain ⟨hoff, hcopy3⟩ := hrep1.core.merged_away htame3
    have hstale3 : (s3.put .isFree a.addr 0).get .size m.addr = m.size + (c.size + metaSize) :=
      hoff.trans hstale
    have hle : m.size + (c.size + metaSize) ≤
        a.size + (m.size + (c.size + metaSize) + metaSize) := by omega
    have hmin : min ((s3.put .isFree a.addr 0).get .size m.addr)
        ((s3.put .isFree a.addr 0).get .size a.addr) = m.size + (c.size + metaSize) := by
      rw [hstale3, hrep3.core.size
        ⟨a.addr, a.size + (m.size + (c.size + metaSize) + metaSize), false⟩ (by simp)]
      exact Nat.min_eq_left hle
    obtain ⟨hrep4, hkeeps4⟩ := hrep3.memmove {a.addr, m.addr} m.payload
      (n := m.size + (c.size + metaSize)) hle (.inr (.inl rfl))
    obtain ⟨s5, hrun5, hrep5, hkeeps5, hcopy5⟩ := hrep4.splitIfLarge {a.addr, m.addr} rfl hr
      (.inl rfl)
    have hcopy1 : Copied s s1 m.payload m.payload m.size :=
      h'.core.copied_heads (by simp) htame1 le_rfl
    have hcopy2 : Copied s1 s2 m.payload m.payload m.size :=
      hrep1.core.copied_heads (b := ⟨m.addr, m.size + (c.size + metaSize), true⟩) (by simp) htame2
        (Nat.le_add_right _ _)
    have hcopy3' : Copied s2 (s3.put .isFree a.addr 0) m.payload m.payload m.size :=
      hcopy3.mono (Nat.le_add_right _ _)
    have hcopy4 := memmove_copied (s3.put .isFree a.addr 0) a.payload m.payload
      (k := m.size) (n := m.size + (c.size + metaSize)) (Nat.le_add_right _ _)
    refine ⟨s5, ?_, hrep5, ?_, ?_⟩
    · simp only [Block.payload] at hrun5
      rw [hrun1, ok_bind, hrun2, ok_bind, hrun3, ok_bind]
      dsimp only
      rw [hmin]
      exact hrun5
    · exact (((((hkeeps1.mono (by simp)).trans (hkeeps2.mono (Set.empty_subset _))).trans
        (hkeeps3.mono (Set.empty_subset _))).trans hkeeps4).trans hkeeps5).disown h.core
        (by simp) ha
    · exact ((((hcopy1.trans hcopy2).trans hcopy3').trans hcopy4).mono (Nat.min_le_left _ _)).trans
        (hcopy5.mono (Nat.min_le_right _ _))
  · rw [hrun1, ok_bind]
    exact hlarge hbig

/-- The wilderness branch: the last block is grown with `sbrk`. -/
theorem Rep.growUsed (h : Rep os s (L ++ [m])) (hm : m.free = false) (hlt : m.size < r)
    (hr : r < mmapSize) :
    ∃ x, (match sbrk os s.kernel (toIntptr (subT r (s.get .size m.addr))) with
        | (none, k) => Except.ok (0, { s with kernel := k })
        | (some _, k) => Except.ok (m.addr + metaSize,
            Heap.put { s with kernel := k } .size s.allListEnd r)) = (.ok x : Except Fault _) ∧
      Answer os {m.addr} (L ++ [m]) (Reallocates r s.kernel.brk L m []) s x ∧
      Kept s m.payload m.size r x := by
  have hmem : m ∈ L ++ [m] := by simp
  have hms : mmapSize = 131072 := rfl
  have hend : s.allListEnd = m.addr := h.core.last.trans (lastAddr_concat L m)
  have hmH : m.addr ∈ heads (L ++ [m]) := mem_heads hmem
  have hsub : subT r (s.get .size m.addr) = r - m.size := by
    rw [h.core.size m hmem]
    exact subT_of_le (by omega) (by omega)
  rw [hsub]
  rcases sbrk_cases os s.kernel (n := r - m.size) (by omega) with hsb | ⟨hlim, hsb⟩
  · rw [hsb]
    exact ⟨_, rfl, h.refused _ _, .null fun _ _ => rfl⟩
  · rw [hsb]
    have h1 : Rep os { s with kernel := s.kernel.moved (r - m.size) } (L ++ [m]) :=
      h.setKernel (Nat.le_add_right _ _) hlim
    have hlay : Layout os.brk0 (L ++ [{ m with size := r }]) (s.kernel.moved (r - m.size)).brk := by
      obtain ⟨mid, hl1, hl2, hl3⟩ := Layout.middle_iff.mp h.core.layout
      refine Layout.middle_iff.mpr ⟨mid, hl1, hl2, ?_⟩
      change m.addr + metaSize + r ≤ s.kernel.brk + (r - m.size)
      have hl3' : m.addr + metaSize + m.size ≤ s.kernel.brk := hl3
      omega
    have hcore := h1.core.resize (n := r) (by unfold IsWord; omega) hlay
    have hnot : m.addr ∉ freeHeads (L ++ [m]) := h.notMem_freeHeads hmem hm
    have hfree : freeHeads (L ++ [{ m with size := r }]) = freeHeads (L ++ [m]) := by
      rw [freeHeads_take (c := { m with size := r }) h.core.layout hm,
        Set.sdiff_singleton_eq_self hnot]
    have hrep : Rep os (Heap.put { s with kernel := s.kernel.moved (r - m.size) } .size m.addr r)
        (L ++ [{ m with size := r }]) := by
      refine ⟨hcore, forall_mem_replace h.small hr, ?_⟩
      rw [hfree]
      exact h1.binned.put_notMem h1.core.headers freeHeads_subset hmH hnot _ _
    have htame := Tame.put { s with kernel := s.kernel.moved (r - m.size) } .size r hmH
    have hput : Heap.put { s with kernel := s.kernel.moved (r - m.size) } .size s.allListEnd r =
        Heap.put { s with kernel := s.kernel.moved (r - m.size) } .size m.addr r :=
      congrArg (fun a => Heap.put { s with kernel := s.kernel.moved (r - m.size) } .size a r) hend
    rw [← hput] at hrep htame
    have hcopy : Copied s (Heap.put { s with kernel := s.kernel.moved (r - m.size) } .size
        s.allListEnd r) m.payload m.payload (min m.size r) :=
      (h1.core.copied_heads hmem htame le_rfl).mono (Nat.min_le_left _ _)
    refine ⟨_, rfl, .block _ _ _ (.wilderness rfl hlt) hrep ?_, .block (payload_ne_zero m) hcopy⟩
    refine (.of_headers (H := heads (L ++ [m]))
      (fun x hx => htame.frame x hx) h.core hrep.core (fun p hp => .inl hp) rfl rfl rfl rfl
      le_rfl ?_ ?_ ?_)
    · exact fun d hd _ ho => mem_replace_of_ne hd (ne_of_addr_notMem ho)
    · intro _ k _ hk hbrk
      refine ⟨by simpa using hk, ?_⟩
      change s.kernel.brk + (r - m.size) = _
      simp only [totalBytes_append, totalBytes_cons, totalBytes_nil, Block.bytes] at hbrk ⊢
      omega
    · refine ⟨0, ?_⟩
      change s.kernel.brk + (r - m.size) + _ = _
      simp only [totalBytes_append, totalBytes_cons, totalBytes_nil, Block.bytes]
      omega

end Merges

/-! ## Moving -/

section Moving

variable {os : Os} {s : Heap} {L R B B' : List Block} {m : Block} {r brk q lo : Nat}

theorem exists_cut (b : Block) (r : Nat) (hr : r ≤ b.size) :
    ∃ n T, cut b r = n :: T ∧ n.addr = b.addr ∧ n.free = false ∧ r ≤ n.size := by
  unfold cut
  split
  · exact ⟨_, _, rfl, rfl, rfl, hr⟩
  · exact ⟨_, _, rfl, rfl, rfl, le_rfl⟩

/-- The new block of an allocation, clear of every block in use. -/
theorem Allocates.exists_new (h : Allocates r brk B B' q) (hB : Layout lo B brk) :
    ∃ L n R, B' = L ++ n :: R ∧ n.payload = q ∧ n.free = false ∧ r ≤ n.size ∧
      ∀ b ∈ B, b.free = false → b.addr ≠ n.addr := by
  cases h with
  | reuse L R b hb hr hbest =>
      obtain ⟨n, T, hcut, hn, hnf, hnr⟩ := exists_cut b r hr
      refine ⟨L, n, T ++ R, by simp [hcut], by rw [Block.payload, hn]; rfl, hnf, hnr, ?_⟩
      intro c hc hcf he
      rw [hB.eq_of_addr hc (by simp) (he.trans hn), hb] at hcf
      cases hcf
  | grow L b hb hnone =>
      refine ⟨L, _, [], rfl, rfl, rfl, le_rfl, ?_⟩
      intro c hc hcf he
      rw [hB.eq_of_addr hc (b := c) (c := b) (by simp) he, hb] at hcf
      cases hcf
  | fresh B hlast hnone =>
      refine ⟨B, _, [], rfl, rfl, rfl, le_rfl, ?_⟩
      intro c hc _ he
      have := (hB.bounds hc).2
      have := addr_lt_fin c
      simp only at he
      omega

theorem freeHeadBytes_append_le {T : List Block} (hT : freeHeadBytes T = 0) :
    freeHeadBytes (L ++ T) ≤ freeHeadBytes (L ++ R) := by
  cases L with
  | nil => simp [hT]
  | cons c L => exact le_rfl

/-- Of two different blocks of one list, one stands before the other. -/
theorem append_cons_cases {L1 R1 : List Block} (hmb : m ≠ b) (h : L ++ m :: R = L1 ++ b :: R1) :
    (∃ as, L1 = L ++ m :: as ∧ R = as ++ b :: R1) ∨
      ∃ cs, L = L1 ++ b :: cs ∧ R1 = cs ++ m :: R := by
  rcases List.append_eq_append_iff.mp h with ⟨as, rfl, hR⟩ | ⟨cs, rfl, hR⟩
  · cases as with
    | nil =>
        simp only [List.nil_append, List.cons.injEq] at hR
        exact absurd hR.1 hmb
    | cons x as =>
        simp only [List.cons_append, List.cons.injEq] at hR
        obtain ⟨rfl, rfl⟩ := hR
        exact .inl ⟨as, rfl, rfl⟩
  · cases cs with
    | nil =>
        simp only [List.nil_append, List.cons.injEq] at hR
        exact absurd hR.1.symm hmb
    | cons x cs =>
        simp only [List.cons_append, List.cons.injEq] at hR
        obtain ⟨rfl, rfl⟩ := hR
        exact .inr ⟨cs, rfl, rfl⟩

/-- An allocation elsewhere does not give `m` a larger free neighbour. -/
theorem Allocates.around (h : Allocates r brk (L ++ m :: R) B' q) (hm : m.free = false)
    (hl : freeLastBytes L + m.size < r) :
    ∃ L' R', B' = L' ++ m :: R' ∧ freeLastBytes L' ≤ freeLastBytes L ∧
      freeHeadBytes R' ≤ freeHeadBytes R := by
  generalize hB : L ++ m :: R = B at h
  cases h with
  | reuse L1 R1 b hb hr hbest =>
      obtain ⟨n, T, hcut, -, hnf, -⟩ := exists_cut b r hr
      obtain ⟨as, rfl, rfl⟩ | ⟨cs, rfl, rfl⟩ := append_cons_cases (ne_of_free hm hb) hB
      · refine ⟨L, as ++ (cut b r ++ R1), by simp, le_rfl, freeHeadBytes_append_le ?_⟩
        simp [hcut, freeHeadBytes, hnf]
      · refine ⟨L1 ++ cut b r ++ cs, R, by simp, ?_, le_rfl⟩
        -- a left neighbour that was large enough would have been used
        rcases List.eq_nil_or_concat cs with rfl | ⟨cs, z, rfl⟩
        · rw [freeLastBytes_concat] at hl
          simp only [hb, if_true] at hl
          omega
        · rw [List.concat_eq_append]
          have h1 : L1 ++ b :: (cs ++ [z]) = (L1 ++ b :: cs) ++ [z] := by simp
          rw [h1, freeLastBytes_concat, ← List.append_assoc, freeLastBytes_concat]
  | grow L1 b hb hnone =>
      obtain ⟨as, rfl, rfl⟩ | ⟨cs, rfl, hR⟩ := append_cons_cases (ne_of_free hm hb) hB
      · refine ⟨L, as ++ [⟨b.addr, r, false⟩], by simp, le_rfl, freeHeadBytes_append_le ?_⟩
        simp [freeHeadBytes]
      · simp at hR
  | fresh B hlast hnone =>
      subst hB
      refine ⟨L, R ++ [⟨brk, r, false⟩], by simp, le_rfl, ?_⟩
      have := freeHeadBytes_append_le (L := R) (R := []) (T := [⟨brk, r, false⟩])
        (by simp [freeHeadBytes])
      simpa using this

/-- Branches `e` and `f`, after the new block was requested. -/
theorem Answer.move {x : Nat × Heap}
    (hx : Answer os ∅ (L ++ m :: R) (Allocates r s.kernel.brk (L ++ m :: R)) s x)
    (h : Rep os s (L ++ m :: R)) (hm : m.free = false) (hr : r < mmapSize)
    (hsum : freeLastBytes L + m.size + freeHeadBytes R < r) :
    ∃ y, (if x.1 = 0 then Except.ok (0, x.2) else do
        let s ← sfree (x.2.memmove x.1 m.payload (min (x.2.get .size m.addr) r)) m.payload
        Except.ok (x.1, s)) = (.ok y : Except Fault _) ∧
      Answer os {m.addr} (L ++ m :: R) (Reallocates r s.kernel.brk L m R) s y ∧
      Kept s m.payload m.size r y := by
  cases hx with
  | null s' hrep hkeeps hfail =>
      refine ⟨_, if_pos rfl, .null s' hrep hkeeps hfail, .null fun i hi => ?_⟩
      exact (hkeeps.used m (by simp) hm (by simp)).2 (m.payload + i) (by omega)
        (by unfold Block.payload Block.fin; omega)
  | block B' q s1 halloc hrep1 hkeeps1 =>
      obtain ⟨Ln, n, Rn, hB', rfl, hnf, hnr, hnew⟩ := halloc.exists_new h.core.layout
      obtain ⟨L', R', rfl, hl', hr'⟩ := halloc.around hm (by omega)
      have hmn : m.addr ≠ n.addr := hnew m (by simp) hm
      have hcopy : min (s1.get .size m.addr) r ≤ n.size := (Nat.min_le_right _ _).trans hnr
      have hrep2 : Rep os (s1.memmove n.payload m.payload (min (s1.get .size m.addr) r))
            (L' ++ m :: R') ∧
          Keeps os {n.addr, m.addr} (L' ++ m :: R') (L' ++ m :: R') s1
            (s1.memmove n.payload m.payload (min (s1.get .size m.addr) r)) := by
        rw [hB'] at hrep1 ⊢
        exact hrep1.memmove _ _ hcopy (.inr (.inl rfl))
      obtain ⟨s3, hrun3, hrep3, hkeeps3⟩ := (sfree_heap hrep2.1 hm).1 (by omega)
      have hcopy3 : Copied s s3 m.payload n.payload (min m.size r) := by
        have hmem' : m ∈ L' ++ m :: R' := by simp
        have hnmem : n ∈ L' ++ m :: R' := by rw [hB']; simp
        have hsz : s1.get .size m.addr = m.size := hrep1.core.size m hmem'
        intro i hi
        have hold := (hkeeps1.used m (by simp) hm (by simp)).2 (m.payload + i) (by omega)
          (by unfold Block.payload Block.fin; omega)
        have hmoved := memmove_copied s1 n.payload m.payload (le_refl (min m.size r)) i hi
        have hnew' := (hkeeps3.used n hnmem hnf (by simpa using hmn.symm)).2 (n.payload + i)
          (by omega) (by unfold Block.payload Block.fin; omega)
        rw [hnew', hsz, hmoved, hold]
      refine ⟨(n.payload, s3), ?_, .block _ _ _ (.move L' R' _ (by omega) halloc) hrep3 ?_,
        .block (payload_ne_zero n) hcopy3⟩
      · rw [if_neg (payload_ne_zero n), hrun3]
        rfl
      · refine (((hkeeps1.mono (Set.empty_subset _)).trans hrep2.2).trans
          (hkeeps3.mono (by simp))).reown ?_
        rintro b hb hbf (he | he)
        · exact absurd he (hnew b hb hbf)
        · exact he

end Moving

/-! ## The call -/

section Call

variable {v : Version} {os : Os} {s : Heap} {L R : List Block} {m : Block} {size : Nat}

/-- **`srealloc`** of a block of the heap list, below `MMAP_SIZE`. The bytes of
the block are found again at the pointer it returns. -/
theorem srealloc_heap (size : Nat) (h : Rep os s (L ++ m :: R)) (hm : m.free = false)
    (h0 : v.round size ≠ 0) (hlt : v.round size < mmapSize)
    (hd : v = .malloc4 ∨
      ¬BranchD (freeLastBytes L) m.size (freeHeadBytes R) (v.round size)) :
    (ReallocFits (freeLastBytes L) m.size (freeHeadBytes R) (v.round size) →
      ∃ x, srealloc v os s m.payload size = .ok x ∧
        Answer os {m.addr} (L ++ m :: R) (Reallocates (v.round size) s.kernel.brk L m R) s x ∧
        Kept s m.payload m.size (v.round size) x) ∧
    (¬ReallocFits (freeLastBytes L) m.size (freeHeadBytes R) (v.round size) →
      srealloc v os s m.payload size = .error .addIndex) := by
  obtain ⟨r, hr⟩ : ∃ r, r = v.round size := ⟨_, rfl⟩
  have hround : v.round r = r := by rw [hr, round_round]
  have hms : metaSize = 48 := rfl
  have hmm : mmapSize = 131072 := rfl
  have hmem : m ∈ L ++ m :: R := by simp
  rw [← hr] at h0 hlt hd ⊢
  have hmax := in_range h0 hlt
  rw [srealloc]
  simp only [← hr, if_neg hmax, if_neg (payload_ne_zero m), if_neg (Nat.not_le.mpr hlt),
    payload_sub, ge_iff_le]
  by_cases ha : r ≤ m.size
  · -- branch a
    rw [if_pos (by rw [h.core.size m hmem]; exact ha)]
    refine ⟨fun _ => ?_, fun hn => absurd (fun hlt => absurd ha (Nat.not_le.mpr hlt)) hn⟩
    obtain ⟨s', hrun, hrep, hkeeps, hcopy⟩ := h.splitIfLarge {m.addr} hm ha rfl
    exact ⟨_, hrun, .block _ _ _ (.inPlace ha) hrep hkeeps,
      .block (payload_ne_zero m) (hcopy.mono (Nat.min_le_right _ _))⟩
  have ha' : m.size < r := Nat.not_le.mp ha
  rw [if_neg (by rw [h.core.size m hmem]; exact ha)]
  by_cases hb : r ≤ freeLastBytes L + m.size
  · -- branch b
    rw [if_pos ((h.guard_left ha').mpr hb)]
    obtain ⟨L', a, rfl, haf, hbytes⟩ := exists_free_last (L := L) (by omega)
    rw [hbytes] at hb ⊢
    have hcut : (L' ++ [a]) ++ m :: R = L' ++ a :: m :: R := by simp
    have hprev : s.get .listPrev m.addr = a.addr := h.core.links.1.trans (lastAddr_concat L' a)
    rw [hprev]
    have h' := h
    rw [hcut] at h'
    obtain ⟨hfit, hlarge⟩ := h'.branch_left haf hm (r := r) (by omega)
    refine ⟨fun hf => ?_, fun hf => ?_⟩
    · have hsmall := hf ha'
      rw [if_pos hb] at hsmall
      obtain ⟨s', hrun, hrep, hkeeps, hcopy⟩ := hfit (by omega)
      rw [← hcut] at hkeeps
      exact ⟨_, hrun, .block _ _ _ (.left L' a rfl haf ha' (by omega)) hrep hkeeps,
        .block (payload_ne_zero a) hcopy⟩
    · rw [hlarge (by
        by_contra hsmall
        exact hf fun _ => by rw [if_pos hb]; omega)]
      rfl
  rw [if_neg ((h.guard_left ha').not.mpr hb)]
  by_cases hc : r ≤ m.size + freeHeadBytes R
  · -- branch c
    rw [if_pos ((h.guard_right ha').mpr hc)]
    obtain ⟨R', c, rfl, hcf, hbytes⟩ := exists_free_head (R := R) (by omega)
    rw [hbytes] at hc ⊢
    obtain ⟨hfit, hlarge⟩ := h.branch_right hm hcf (r := r) (by omega)
    refine ⟨fun hf => ?_, fun hf => ?_⟩
    · have hsmall := hf ha'
      rw [if_neg hb, if_pos hc] at hsmall
      obtain ⟨s', hrun, hrep, hkeeps, hcopy⟩ := hfit (by omega)
      exact ⟨_, hrun, .block _ _ _ (.right R' c rfl hcf ha' (by omega)) hrep hkeeps,
        .block (payload_ne_zero m) hcopy⟩
    · rw [hlarge (by
        by_contra hsmall
        exact hf fun _ => by rw [if_neg hb, if_pos hc]; omega)]
      rfl
  rw [if_neg ((h.guard_right ha').not.mpr hc)]
  by_cases hbd : r ≤ freeLastBytes L + m.size + freeHeadBytes R
  · -- branch d
    rw [if_pos ((h.guard_both (Nat.not_le.mp hb) (Nat.not_le.mp hc)).mpr hbd)]
    obtain rfl : v = .malloc4 := hd.resolve_right fun hn =>
      hn ⟨Nat.not_le.mp hb, Nat.not_le.mp hc, hbd⟩
    obtain ⟨L', a, rfl, haf, hleft⟩ := exists_free_last (L := L) (by omega)
    obtain ⟨R', c, rfl, hcf, hright⟩ := exists_free_head (R := R) (by omega)
    rw [hleft] at hb hbd ⊢
    rw [hright] at hc hbd ⊢
    have hcut : (L' ++ [a]) ++ m :: c :: R' = L' ++ a :: m :: c :: R' := by simp
    have hprev : s.get .listPrev m.addr = a.addr := h.core.links.1.trans (lastAddr_concat L' a)
    rw [hprev]
    have h' := h
    rw [hcut] at h'
    obtain ⟨hfit, hlarge⟩ := h'.branch_both haf hm hcf (r := r) (by omega) (by omega)
    refine ⟨fun hf => ?_, fun hf => ?_⟩
    · have hsmall := hf ha'
      rw [if_neg hb, if_neg hc] at hsmall
      have hsmall' := hsmall hbd
      obtain ⟨s', hrun, hrep, hkeeps, hcopy⟩ := hfit (by omega)
      rw [← hcut] at hkeeps
      exact ⟨_, hrun, .block _ _ _ (.both L' R' a c rfl rfl haf hcf ha' (by omega)) hrep hkeeps,
        .block (payload_ne_zero a) hcopy⟩
    · have herr := hlarge (by
        by_contra hsmall
        exact hf fun _ => by
          rw [if_neg hb, if_neg hc]
          intro
          omega)
      cases hrun : uniteSrealloc s m.addr m.addr false with
      | error e =>
          rw [hrun, error_bind] at herr
          cases herr
          rfl
      | ok t =>
          rw [hrun, ok_bind] at herr
          rw [ok_bind, herr]
          rfl
  rw [if_neg ((h.guard_both (Nat.not_le.mp hb) (Nat.not_le.mp hc)).not.mpr hbd)]
  have hfits : ReallocFits (freeLastBytes L) m.size (freeHeadBytes R) r := fun _ => by
    rw [if_neg hb, if_neg hc]
    exact fun hle => absurd hle hbd
  refine ⟨fun _ => ?_, fun hf => absurd hfits hf⟩
  by_cases hR : R = []
  · -- the wilderness
    subst hR
    have hnext : s.get .listNext m.addr = 0 := h.core.links.2
    have hend : s.allListEnd = m.addr := h.core.last.trans (lastAddr_concat L m)
    rw [if_pos ⟨hnext, hend⟩]
    exact h.growUsed hm ha' hlt
  · -- branches e and f
    have hnext : ¬(s.get .listNext m.addr = 0 ∧ s.allListEnd = m.addr) := by
      rintro ⟨h1, -⟩
      rw [h.core.links.2] at h1
      rcases firstAddr_mem_or R with ⟨-, h2⟩ | ⟨c, hc, h2⟩
      · exact hR h2
      · exact h.addr_ne_zero (b := c) (by simp [hc]) (h2.trans h1)
    rw [if_neg hnext]
    obtain ⟨x, hrun, hx⟩ := smalloc_small v r h (by rw [hround]; exact h0)
      (by rw [hround]; exact hlt)
    rw [hround] at hx
    rw [hrun, ok_bind]
    exact hx.move h hm hlt (by omega)

end Call

end OsAllHw.Malloc
