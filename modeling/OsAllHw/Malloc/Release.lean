import OsAllHw.Malloc.Tiling

/-!
# `sfree` in detail

`Keeps` says what a call leaves to the client. `Releases` says what `sfree`
leaves to a later `sfree`: only headers of the list are written, a header
that said `is_free` still does, also where a merge has left it stale inside
a larger block, and `num_of_metadatas` goes down by one for each merge.
-/

namespace OsAllHw.Malloc

open Lib

/-- `num_of_metadatas` after `k` merges. -/
def decremented (k n : Nat) : Nat := (fun n => subT n 1)^[k] n

theorem decremented_zero (n : Nat) : decremented 0 n = n := Function.iterate_zero_apply _ n

theorem decremented_one (n : Nat) : decremented 1 n = subT n 1 :=
  congrFun (Function.iterate_one _) n

theorem decremented_add (j k n : Nat) : decremented (j + k) n = decremented j (decremented k n) :=
  Function.iterate_add_apply _ j k n

structure Releases (s s' : Heap) (B B' : List Block) : Prop where
  tame : Tame (heads B) s s'
  shorter : B'.length ≤ B.length
  heads : heads B' ⊆ heads B
  flags : ∀ a ∈ Malloc.heads B, s.isFree a = true → s'.isFree a = true
  num : s'.numOfMetadatas = decremented (B.length - B'.length) s.numOfMetadatas

section Flags

variable {os : Os} {s s' s'' : Heap} {B B' B'' : List Block} {H : Set Nat} {a : Nat}

namespace Releases

/-- Headers known from before may have left the list. -/
theorem flag_of (h : Releases s s' B B') (hH : Headers H) (hB : Malloc.heads B ⊆ H) (ha : a ∈ H)
    (hfree : s.isFree a = true) : s'.isFree a = true := by
  by_cases hin : a ∈ Malloc.heads B
  · exact h.flags a hin hfree
  · rw [Heap.isFree, h.tame.get_off_list hH hB ha hin .isFree]
    exact hfree

theorem refl (s : Heap) (B : List Block) : Releases s s B B where
  tame := .refl s
  shorter := le_rfl
  heads := subset_rfl
  flags _ _ hfree := hfree
  num := by rw [Nat.sub_self, decremented_zero]

theorem trans (h : Releases s s' B B') (h' : Releases s' s'' B' B'')
    (hB : Headers (Malloc.heads B)) :
    Releases s s'' B B'' where
  tame := h.tame.trans (h'.tame.mono h.heads)
  shorter := h'.shorter.trans h.shorter
  heads := h'.heads.trans h.heads
  flags a ha hfree := h'.flag_of hB h.heads ha (h.flags a ha hfree)
  num := by
    have h1 := h.shorter
    have h2 := h'.shorter
    rw [h'.num, h.num, ← decremented_add]
    congr 1
    omega

end Releases

/-- The flags of the list in memory. -/
theorem Core.isFree_iff (h : Core os s B) (ha : a ∈ heads B) :
    s.isFree a = true ↔ a ∈ freeHeads B := by
  obtain ⟨b, hb, rfl⟩ := ha
  rw [h.flag b hb, mem_freeHeads_iff h.layout hb]

end Flags

section Moves

variable {os : Os} {s s' : Heap} {L R : List Block} {b c m : Block}

theorem Rep.markFree_releases (h : Rep os s (L ++ b :: R)) (hb : b.free = false) :
    ∃ s', addNodeHisto (s.put .isFree b.addr 1) b.addr = .ok s' ∧
      Rep os s' (L ++ { b with free := true } :: R) ∧
      Releases s s' (L ++ b :: R) (L ++ { b with free := true } :: R) := by
  obtain ⟨s', hrun, hrep, htame, hnum⟩ := h.markFree hb
  have hheads := heads_replace (L := L) (R := R) b { b with free := true } rfl
  refine ⟨s', hrun, hrep, htame, by simp, hheads.le, fun a ha hfree => ?_, ?_⟩
  · rw [hrep.core.isFree_iff (hheads ▸ ha), freeHeads_mark b { b with free := true } rfl rfl]
    exact .inr ((h.core.isFree_iff ha).mp hfree)
  · rw [hnum, List.length_append, List.length_append, List.length_cons, List.length_cons,
      Nat.sub_self, decremented_zero]

theorem Rep.unite_releases (h : Rep os s (L ++ b :: c :: R)) (hb : b.free = true)
    (hc : c.free = true) (hsize : b.size + (c.size + metaSize) < mmapSize)
    (hrun : uniteRight s b.addr = .ok s') :
    Releases s s' (L ++ b :: c :: R) (L ++ ⟨b.addr, b.size + (c.size + metaSize), true⟩ :: R) := by
  obtain ⟨t, hrun', hrep, htame, hnum, hstale⟩ := h.unite hb hc hsize
  obtain rfl : s' = t := Except.ok.inj (hrun.symm.trans hrun')
  refine ⟨htame, by simp, fun a ha => ?_, fun a ha hfree => ?_, ?_⟩
  · simp only [mem_heads_append, mem_heads_cons] at ha ⊢
    exact ha.imp_right (Or.imp_right Or.inr)
  · have hafree := (h.core.isFree_iff ha).mp hfree
    by_cases hac : a = c.addr
    · rw [hac, hstale.2, ← hac]
      exact hfree
    · have hmem : a ∈ freeHeads (L ++ ⟨b.addr, b.size + (c.size + metaSize), true⟩ :: R) := by
        rw [freeHeads_unite ⟨b.addr, b.size + (c.size + metaSize), true⟩ h.core.layout rfl rfl]
        by_cases hab : a = b.addr
        · exact .inl hab
        · exact .inr ⟨⟨hafree, hac⟩, hab⟩
      exact (hrep.core.isFree_iff (freeHeads_subset hmem)).mpr hmem
  · have hlen : (L ++ b :: c :: R).length -
        (L ++ ⟨b.addr, b.size + (c.size + metaSize), true⟩ :: R).length = 1 := by
      simp only [List.length_append, List.length_cons]
      omega
    rw [hnum, hlen, decremented_one]

theorem Rep.joinRight_releases (h : Rep os s (L ++ b :: R)) (hb : b.free = true)
    (hfit : b.size + freeHeadBytes R < mmapSize) (hrun : uniteRight s b.addr = .ok s') :
    Releases s s' (L ++ b :: R)
      (L ++ ⟨b.addr, b.size + freeHeadBytes R, true⟩ :: dropFreeHead R) := by
  have hbeta : (⟨b.addr, b.size + 0, true⟩ : Block) = b := by rw [← hb]; rfl
  by_cases hR : 0 < freeHeadBytes R
  · obtain ⟨R', c, rfl, hc, hbytes⟩ := exists_free_head hR
    have hdrop : dropFreeHead (c :: R') = R' := by simp [dropFreeHead, hc]
    rw [hbytes] at hfit ⊢
    rw [hdrop]
    exact h.unite_releases hb hc hfit hrun
  · have hzero : freeHeadBytes R = 0 := Nat.eq_zero_of_not_pos hR
    have hno : freeFirst R = false ∧ dropFreeHead R = R := by
      cases R with
      | nil => exact ⟨rfl, rfl⟩
      | cons c R =>
          have hc := freeHeadBytes_eq_zero.mp hzero c rfl
          exact ⟨hc, by simp [dropFreeHead, hc]⟩
    obtain rfl : s = s' := Except.ok.inj ((h.unite_noop (.inr hno.1)).symm.trans hrun)
    rw [hzero, hno.2, hbeta]
    exact .refl _ _

theorem Rep.joinLeft_releases (h : Rep os s (L ++ m :: R)) (hm : m.free = true)
    (hfit : freeLastBytes L + m.size < mmapSize)
    (hrun : uniteRight s (s.get .listPrev m.addr) = .ok s') :
    Releases s s' (L ++ m :: R)
      (dropFreeLast L ++ ⟨joinAddr L m, freeLastBytes L + m.size, true⟩ :: R) := by
  have hmeta : (⟨m.addr, 0 + m.size, true⟩ : Block) = m := by rw [← hm, Nat.zero_add]
  rw [h.core.links.1] at hrun
  rcases List.eq_nil_or_concat L with rfl | ⟨L, a, rfl⟩
  · obtain rfl : s = s' := by simpa [uniteRight] using hrun
    rw [freeLastBytes_nil, joinAddr_nil, hmeta]
    exact .refl _ _
  · rw [List.concat_eq_append] at *
    rw [lastAddr_concat] at hrun
    rw [List.append_assoc, List.singleton_append] at h ⊢
    rw [freeLastBytes_concat] at hfit ⊢
    rw [joinAddr_concat, dropFreeLast_concat]
    cases ha : a.free with
    | false =>
        obtain rfl : s = s' := Except.ok.inj ((h.unite_noop (.inl ha)).symm.trans hrun)
        simp only [Bool.false_eq_true, if_false, hmeta]
        rw [List.append_assoc]
        exact .refl _ _
    | true =>
        simp only [ha, if_true] at hfit ⊢
        have hsum : a.size + metaSize + m.size = a.size + (m.size + metaSize) := by omega
        rw [hsum] at hfit ⊢
        exact h.unite_releases ha hm hfit hrun

/-- **`sfree`** of a block of the heap list, with what it leaves behind. -/
theorem sfree_releases (h : Rep os s (L ++ m :: R)) (hm : m.free = false)
    (hfit : freeLastBytes L + m.size + freeHeadBytes R < mmapSize) :
    ∃ s', sfree s m.payload = .ok s' ∧ Rep os s' (freed L m R) ∧
      Releases s s' (L ++ m :: R) (freed L m R) ∧ s'.isFree m.addr = true := by
  have hmem : m ∈ L ++ m :: R := by simp
  have hflag : s.isFree m.addr = false := (h.core.flag m hmem).trans hm
  have hsize : ¬mmapSize ≤ s.get .size m.addr := by
    rw [h.core.size m hmem]
    exact Nat.not_le.mpr (h.small m hmem)
  obtain ⟨s1, hrun1, hrep1, hrel1⟩ := h.markFree_releases hm
  have hrun : sfree s m.payload = uniteRight s1 m.addr >>= fun t =>
      uniteRight t (t.get .listPrev m.addr) := by
    rw [sfree, if_neg (payload_ne_zero m)]
    simp only [payload_sub, hflag, Bool.false_eq_true, if_false, if_neg hsize]
    rw [hrun1, ok_bind]
  obtain ⟨s2, hrun2, hrep2, -⟩ := (hrep1.joinRight (b := { m with free := true }) rfl).1
    (by dsimp only; omega)
  obtain ⟨s3, hrun3, hrep3, -⟩ := (hrep2.joinLeft rfl).1 (by dsimp only; omega)
  have hrel2 := hrep1.joinRight_releases rfl (by dsimp only; omega) hrun2
  have hrel3 := hrep2.joinLeft_releases rfl (by dsimp only; omega) hrun3
  have hsum : freeLastBytes L + (m.size + freeHeadBytes R) =
      freeLastBytes L + m.size + freeHeadBytes R := (Nat.add_assoc _ _ _).symm
  have haddr : ∀ n, joinAddr L ⟨m.addr, n, true⟩ = joinAddr L m := fun n => by
    rcases List.eq_nil_or_concat L with rfl | ⟨L, a, rfl⟩
    · rfl
    · simp
  have hB : dropFreeLast L ++ ⟨joinAddr L ⟨m.addr, m.size + freeHeadBytes R, true⟩,
      freeLastBytes L + (m.size + freeHeadBytes R), true⟩ :: dropFreeHead R = freed L m R := by
    rw [haddr, hsum, freed]
  dsimp only at hrep3 hrel3
  rw [hB] at hrep3 hrel3
  have hrel23 := hrel2.trans hrel3 hrep1.core.headers
  have hm1 : m.addr ∈ heads (L ++ { m with free := true } :: R) :=
    mem_heads (b := { m with free := true }) (by simp)
  refine ⟨s3, ?_, hrep3, hrel1.trans hrel23 h.core.headers, hrel23.flags _ hm1 ?_⟩
  · rw [hrun, hrun2, ok_bind]
    exact hrun3
  · exact hrep1.core.flag { m with free := true } (by simp)

/-- A second `sfree` of a block whose header says `is_free`. -/
theorem sfree_again {p : Nat} (hp : p ≠ 0) (hfree : s.isFree (p - metaSize) = true) :
    sfree s p = .ok s := by
  rw [sfree, if_neg hp]
  simp only [hfree, if_true]
  rfl

end Moves

end OsAllHw.Malloc
