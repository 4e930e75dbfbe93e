import OsAllHw.Malloc.Alloc

/-!
# `sfree`

A released block is joined with its free neighbours, first the right one,
then the left one. Over block lists that is one expression, `freed L m R`.
The specification has a second half: if the joined block is `MMAP_SIZE`
bytes or more, the histogram index runs past its last bucket.
-/

namespace OsAllHw.Malloc

open Lib

/-- Bytes a free first block would add to its left neighbour. -/
def freeHeadBytes : List Block → Nat
  | [] => 0
  | c :: _ => if c.free then c.size + metaSize else 0

/-- What is left of the list when a free first block is absorbed. -/
def dropFreeHead : List Block → List Block
  | [] => []
  | c :: R => if c.free then R else c :: R

/-- Bytes a free last block would add to its right neighbour. -/
def freeLastBytes (L : List Block) : Nat := freeHeadBytes L.reverse

def dropFreeLast (L : List Block) : List Block := (dropFreeHead L.reverse).reverse

/-- Where the joined block starts. -/
def joinAddr (L : List Block) (m : Block) : Nat :=
  match L.reverse with
  | [] => m.addr
  | a :: _ => if a.free then a.addr else m.addr

/-- The block list after `m` is released. -/
def freed (L : List Block) (m : Block) (R : List Block) : List Block :=
  dropFreeLast L ++
    ⟨joinAddr L m, freeLastBytes L + m.size + freeHeadBytes R, true⟩ :: dropFreeHead R

section Joins

variable {os : Os} {s : Heap} {L R : List Block} {a b m : Block}

@[simp] theorem freeLastBytes_nil : freeLastBytes [] = 0 := rfl

@[simp] theorem freeLastBytes_concat :
    freeLastBytes (L ++ [a]) = if a.free then a.size + metaSize else 0 := by
  simp [freeLastBytes, freeHeadBytes]

@[simp] theorem dropFreeLast_nil : dropFreeLast [] = [] := rfl

@[simp] theorem dropFreeLast_concat :
    dropFreeLast (L ++ [a]) = if a.free then L else L ++ [a] := by
  cases ha : a.free <;> simp [dropFreeLast, dropFreeHead, ha]

@[simp] theorem joinAddr_nil : joinAddr [] m = m.addr := rfl

@[simp] theorem joinAddr_concat :
    joinAddr (L ++ [a]) m = if a.free then a.addr else m.addr := by
  simp [joinAddr]

/-- **`unite_right`** on a free block. -/
theorem Rep.joinRight (h : Rep os s (L ++ b :: R)) (hb : b.free = true) :
    (b.size + freeHeadBytes R < mmapSize →
      ∃ s', uniteRight s b.addr = .ok s' ∧
        Rep os s' (L ++ ⟨b.addr, b.size + freeHeadBytes R, true⟩ :: dropFreeHead R) ∧
        Keeps os ∅ (L ++ b :: R) (L ++ ⟨b.addr, b.size + freeHeadBytes R, true⟩ :: dropFreeHead R)
          s s') ∧
    (mmapSize ≤ b.size + freeHeadBytes R → uniteRight s b.addr = .error .addIndex) := by
  have hbeta : (⟨b.addr, b.size + 0, true⟩ : Block) = b := by rw [← hb]; rfl
  cases R with
  | nil =>
      refine ⟨fun _ => ⟨s, h.unite_noop (.inr rfl), ?_, ?_⟩, fun hlarge => ?_⟩
      · rw [freeHeadBytes, hbeta]
        exact h
      · rw [freeHeadBytes, hbeta]
        exact .refl _ _ _
      · exact absurd (h.small b (by simp)) (Nat.not_lt.mpr hlarge)
  | cons c R =>
      cases hc : c.free with
      | false =>
          have hz : freeHeadBytes (c :: R) = 0 := by simp [freeHeadBytes, hc]
          have hd : dropFreeHead (c :: R) = c :: R := by simp [dropFreeHead, hc]
          rw [hz, hd, hbeta]
          refine ⟨fun _ => ⟨s, h.unite_noop (.inr hc), h, .refl _ _ _⟩, fun hlarge => ?_⟩
          exact absurd (h.small b (by simp)) (Nat.not_lt.mpr hlarge)
      | true =>
          have hz : freeHeadBytes (c :: R) = c.size + metaSize := by simp [freeHeadBytes, hc]
          have hd : dropFreeHead (c :: R) = R := by simp [dropFreeHead, hc]
          rw [hz, hd]
          refine ⟨fun hsize => ?_, h.unite_error hb hc⟩
          obtain ⟨s', hrun, hrep, hkeeps, -⟩ := h.unite_keeps hb hc hsize
          exact ⟨s', hrun, hrep, hkeeps⟩

/-- **`unite_right`** from the left neighbour of a free block. -/
theorem Rep.joinLeft (h : Rep os s (L ++ m :: R)) (hm : m.free = true) :
    (freeLastBytes L + m.size < mmapSize →
      ∃ s', uniteRight s (s.get .listPrev m.addr) = .ok s' ∧
        Rep os s' (dropFreeLast L ++ ⟨joinAddr L m, freeLastBytes L + m.size, true⟩ :: R) ∧
        Keeps os ∅ (L ++ m :: R)
          (dropFreeLast L ++ ⟨joinAddr L m, freeLastBytes L + m.size, true⟩ :: R) s s') ∧
    (mmapSize ≤ freeLastBytes L + m.size →
      uniteRight s (s.get .listPrev m.addr) = .error .addIndex) := by
  have hmeta : (⟨m.addr, 0 + m.size, true⟩ : Block) = m := by rw [← hm, Nat.zero_add]
  have hprev := h.core.links.1
  rcases List.eq_nil_or_concat L with rfl | ⟨L, a, rfl⟩
  · rw [hprev]
    refine ⟨fun _ => ⟨s, by simp [uniteRight], ?_, ?_⟩, fun hlarge => ?_⟩
    · rw [freeLastBytes_nil, joinAddr_nil, hmeta]
      exact h
    · rw [freeLastBytes_nil, joinAddr_nil, hmeta]
      exact .refl _ _ _
    · have := h.small m (by simp)
      rw [freeLastBytes_nil] at hlarge
      omega
  · rw [List.concat_eq_append] at *
    rw [hprev, lastAddr_concat]
    rw [List.append_assoc, List.singleton_append] at h
    cases ha : a.free with
    | false =>
        rw [freeLastBytes_concat, joinAddr_concat, dropFreeLast_concat]
        simp only [ha, Bool.false_eq_true, if_false, hmeta]
        refine ⟨fun _ => ⟨s, h.unite_noop (.inl ha), ?_, .refl _ _ _⟩, fun hlarge => ?_⟩
        · rw [List.append_assoc]
          exact h
        · have := h.small m (by simp)
          omega
    | true =>
        rw [freeLastBytes_concat, joinAddr_concat, dropFreeLast_concat]
        simp only [ha, if_true]
        have hsum : a.size + metaSize + m.size = a.size + (m.size + metaSize) := by omega
        rw [hsum, List.append_assoc]
        refine ⟨fun hsize => ?_, h.unite_error ha hm⟩
        obtain ⟨s', hrun, hrep, hkeeps, -⟩ := h.unite_keeps ha hm hsize
        exact ⟨s', hrun, hrep, hkeeps⟩

theorem payload_sub (b : Block) : b.payload - metaSize = b.addr := Nat.add_sub_cancel _ _

theorem payload_ne_zero (b : Block) : b.payload ≠ 0 :=
  Nat.ne_of_gt ((Nat.zero_le _).trans_lt (addr_lt_payload b))

/-- **`sfree`** of a block of the heap list. -/
theorem sfree_heap (h : Rep os s (L ++ m :: R)) (hm : m.free = false) :
    (freeLastBytes L + m.size + freeHeadBytes R < mmapSize →
      ∃ s', sfree s m.payload = .ok s' ∧ Rep os s' (freed L m R) ∧
        Keeps os {m.addr} (L ++ m :: R) (freed L m R) s s') ∧
    (mmapSize ≤ freeLastBytes L + m.size + freeHeadBytes R →
      sfree s m.payload = .error .addIndex) := by
  have hmem : m ∈ L ++ m :: R := by simp
  have hflag : s.isFree m.addr = false := (h.core.flag m hmem).trans hm
  have hsize : ¬mmapSize ≤ s.get .size m.addr := by
    rw [h.core.size m hmem]
    exact Nat.not_le.mpr (h.small m hmem)
  obtain ⟨s1, hrun1, hrep1, hkeeps1, -⟩ := h.markFree_keeps hm
  have hrun : sfree s m.payload = uniteRight s1 m.addr >>= fun t =>
      uniteRight t (t.get .listPrev m.addr) := by
    rw [sfree, if_neg (payload_ne_zero m)]
    simp only [payload_sub, hflag, Bool.false_eq_true, if_false, if_neg hsize]
    rw [hrun1, ok_bind]
  obtain ⟨hfit, hlarge⟩ := hrep1.joinRight (b := { m with free := true }) rfl
  rw [hrun]
  by_cases hright : m.size + freeHeadBytes R < mmapSize
  · obtain ⟨s2, hrun2, hrep2, hkeeps2⟩ := hfit hright
    obtain ⟨hfit2, hlarge2⟩ := hrep2.joinLeft rfl
    have hsum : freeLastBytes L + m.size + freeHeadBytes R =
        freeLastBytes L + (m.size + freeHeadBytes R) := Nat.add_assoc _ _ _
    have haddr : ∀ n, joinAddr L ⟨m.addr, n, true⟩ = joinAddr L m := fun n => by
      rcases List.eq_nil_or_concat L with rfl | ⟨L, a, rfl⟩
      · rfl
      · simp
    rw [hrun2, ok_bind, freed, hsum, ← haddr (m.size + freeHeadBytes R)]
    refine ⟨fun hsmall => ?_, fun hbig => hlarge2 hbig⟩
    obtain ⟨s3, hrun3, hrep3, hkeeps3⟩ := hfit2 hsmall
    exact ⟨s3, hrun3, hrep3, (hkeeps1.trans (hkeeps2.mono (Set.empty_subset _))).trans
      (hkeeps3.mono (Set.empty_subset _))⟩
  · refine ⟨fun hsmall => absurd hsmall (by omega), fun _ => ?_⟩
    rw [hlarge (Nat.not_lt.mp hright)]
    rfl

end Joins

end OsAllHw.Malloc
