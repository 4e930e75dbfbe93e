import OsAllHw.Malloc.Header
import OsAllHw.Lib.Dll
import OsAllHw.Lib.Run

/-!
# The free histogram

`Binned s S` is what the 128 buckets must look like when the headers in
`S` are the ones on them: each bucket is a consistent, duplicate-free
chain in non-decreasing size order, and holds exactly the members of `S`
whose size selects it. `add_node_histo` and `remove_node_histo` locate the
bucket from the header's current size, so their specifications say what
`S` becomes and that only `histo_next` and `histo_prev` fields are written.
-/

namespace OsAllHw.Malloc

open Lib

/-- Bucket `i` lists `l`, the members of `S` of its size class. -/
structure Bucket (s : Heap) (S : Set Nat) (i : Fin 128) (l : List Nat) : Prop where
  head : s.freeHistogram i = l.headD 0
  linked : Seg (s.get .histoNext) (s.get .histoPrev) 0 l 0
  nodup : l.Nodup
  sorted : l.Pairwise fun a b => s.get .size a ≤ s.get .size b
  mem : ∀ a, a ∈ l ↔ a ∈ S ∧ s.get .size a / 1024 = i

/-- The headers in `S`, and no others, are on the histogram. -/
def Binned (s : Heap) (S : Set Nat) : Prop := ∀ i, ∃ l, Bucket s S i l

def histoFields : Set Field := {.histoNext, .histoPrev}

/-- Only the histogram and its links in the headers `H` have changed. -/
structure HistoStep (H : Set Nat) (s s' : Heap) : Prop where
  shape : ∃ m fh, s' = { s with mem := m, freeHistogram := fh }
  frame : SameOff (fieldBytes histoFields H) s s'

namespace HistoStep

variable {H : Set Nat} {s s' s'' : Heap}

theorem refl (s : Heap) : HistoStep H s s := ⟨⟨s.mem, s.freeHistogram, rfl⟩, .refl _ s⟩

theorem trans (h : HistoStep H s s') (h' : HistoStep H s' s'') : HistoStep H s s'' := by
  obtain ⟨⟨m, fh, rfl⟩, hf⟩ := h
  obtain ⟨⟨m', fh', rfl⟩, hf'⟩ := h'
  exact ⟨⟨m', fh', rfl⟩, hf.trans hf'⟩

theorem put (s : Heap) {f : Field} {p : Nat} (v : Nat) (hf : f ∈ histoFields) (hp : p ∈ H) :
    HistoStep H s (s.put f p v) :=
  ⟨⟨_, _, rfl⟩, .put s v hf hp⟩

theorem setHisto (s : Heap) (i : Fin 128) (v : Nat) : HistoStep H s (s.setHisto i v) :=
  ⟨⟨_, _, rfl⟩, fun _ _ => rfl⟩

/-- The other four fields of every header are untouched. -/
theorem get (hH : Headers H) (h : HistoStep H s s') {g : Field} {q : Nat}
    (hg : g ∉ histoFields) (hq : q ∈ H) : s'.get g q = s.get g q :=
  h.frame.get hH hg hq

theorem kernel (h : HistoStep H s s') : s'.kernel = s.kernel := by
  obtain ⟨⟨m, fh, rfl⟩, -⟩ := h; rfl

theorem numOfMetadatas (h : HistoStep H s s') : s'.numOfMetadatas = s.numOfMetadatas := by
  obtain ⟨⟨m, fh, rfl⟩, -⟩ := h; rfl

end HistoStep

theorem size_notMem_histoFields : Field.size ∉ histoFields := by simp [histoFields]

theorem div_lt_of_lt_mmapSize {n : Nat} (h : n < mmapSize) : n / 1024 < 128 := by
  unfold mmapSize at h
  omega

theorem histoIndex_of_lt {f : Fault} {n : Nat} (h : n < mmapSize) :
    histoIndex f n = .ok ⟨n / 1024, div_lt_of_lt_mmapSize h⟩ :=
  dif_pos _

theorem histoIndex_of_le {f : Fault} {n : Nat} (h : mmapSize ≤ n) :
    histoIndex f n = .error f := by
  unfold mmapSize at h
  exact dif_neg (by omega)

/-! ## Chains of live headers -/

section Chains

variable {s : Heap} {S H : Set Nat} {i : Fin 128} {l : List Nat}

theorem Bucket.mem_set (h : Bucket s S i l) {a : Nat} (ha : a ∈ l) : a ∈ S :=
  ((h.mem a).mp ha).1

/-- A chain of distinct 64-bit addresses is no longer than the walk fuel. -/
theorem length_lt_walkFuel (hH : Headers H) (hd : l.Nodup) (hl : ∀ a ∈ l, a ∈ H) :
    l.length < walkFuel := by
  have hnodup : (0 :: l).Nodup :=
    List.nodup_cons.mpr ⟨fun h0 => absurd (hH.pos 0 (hl 0 h0)) (by omega), hd⟩
  have hsub : (0 :: l) ⊆ List.range walkFuel := by
    intro a ha
    rcases List.mem_cons.mp ha with rfl | ha
    · exact List.mem_range.mpr (by unfold walkFuel; exact Nat.two_pow_pos 64)
    · exact List.mem_range.mpr (by unfold walkFuel; exact hH.word a (hl a ha))
  have hle := (hnodup.subperm hsub).length_le
  rw [List.length_range, List.length_cons] at hle
  exact hle

/-- The loop of `add_node_histo` stops after the nodes that are no larger. -/
theorem findSlot_eq {size fuel q pp : Nat}
    (h : Seg (s.get .histoNext) (s.get .histoPrev) q l 0) (h0 : ∀ a ∈ l, a ≠ 0)
    (hfuel : l.length < fuel) :
    findSlot s size fuel (l.headD 0) pp =
      .ok ((l.takeWhile fun a => decide (s.get .size a ≤ size)).getLastD pp) := by
  induction l generalizing q fuel pp with
  | nil =>
      obtain ⟨fuel, rfl⟩ : ∃ n, fuel = n + 1 := ⟨fuel - 1, by omega⟩
      simp [findSlot]
  | cons a l ih =>
      obtain ⟨fuel, rfl⟩ : ∃ n, fuel = n + 1 := ⟨fuel - 1, by omega⟩
      obtain ⟨-, hn, hrest⟩ := h
      have ha : a ≠ 0 := h0 a (by simp)
      rw [List.headD_cons, findSlot, if_neg ha]
      by_cases hs : s.get .size a ≤ size
      · rw [if_neg (by omega), hn,
          ih hrest (fun b hb => h0 b (by simp [hb])) (by simpa using hfuel),
          List.takeWhile_cons, if_pos (by simpa using hs), List.getLastD_cons]
      · rw [if_pos (by omega), List.takeWhile_cons, if_neg (by simpa using hs)]
        rfl

/-- Where the loop of `add_node_histo` cuts a sorted bucket. -/
theorem Bucket.exists_slot (h : Bucket s S i l) (hH : Headers H) (hSH : S ⊆ H) (size : Nat) :
    ∃ l₁ l₂, l = l₁ ++ l₂ ∧
      findSlot s size walkFuel (s.freeHistogram i) 0 = .ok (l₁.getLastD 0) ∧
      (∀ a ∈ l₁, s.get .size a ≤ size) ∧ ∀ a ∈ l₂, size ≤ s.get .size a := by
  have hlH : ∀ a ∈ l, a ∈ H := fun a ha => hSH (h.mem_set ha)
  have hl0 : ∀ a ∈ l, a ≠ 0 := fun a ha h0 => hH.zero_notMem (h0 ▸ hlH a ha)
  refine ⟨l.takeWhile (fun a => decide (s.get .size a ≤ size)),
    l.dropWhile (fun a => decide (s.get .size a ≤ size)),
    List.takeWhile_append_dropWhile.symm, ?_, ?_, ?_⟩
  · rw [h.head]
    exact findSlot_eq h.linked hl0 (length_lt_walkFuel hH h.nodup hlH)
  · intro a ha
    have := List.mem_takeWhile_imp ha
    exact of_decide_eq_true this
  · -- the first node of the rest is larger, and the chain is sorted
    have hhead := List.head?_dropWhile_not (fun a => decide (s.get .size a ≤ size)) l
    have hsorted := h.sorted.sublist (List.dropWhile_sublist
      (fun a => decide (s.get .size a ≤ size)))
    cases hd : l.dropWhile (fun a => decide (s.get .size a ≤ size)) with
    | nil => simp
    | cons b l₂ =>
        rw [hd] at hhead hsorted
        have hb : size ≤ s.get .size b := by
          have := of_decide_eq_false hhead
          omega
        intro a ha
        rcases List.mem_cons.mp ha with rfl | ha
        · exact hb
        · exact hb.trans ((List.pairwise_cons.mp hsorted).1 a ha)

/-- A bucket whose nodes keep their links and sizes is still a bucket. -/
theorem Bucket.congr {s' : Heap} {S' : Set Nat} (h : Bucket s S i l)
    (hfh : s'.freeHistogram i = s.freeHistogram i)
    (hn : ∀ a ∈ l, s'.get .histoNext a = s.get .histoNext a)
    (hp : ∀ a ∈ l, s'.get .histoPrev a = s.get .histoPrev a)
    (hs : ∀ a ∈ l, s'.get .size a = s.get .size a)
    (hmem : ∀ a, a ∈ l ↔ a ∈ S' ∧ s'.get .size a / 1024 = i) : Bucket s' S' i l where
  head := hfh.trans h.head
  linked := h.linked.congr hn hp
  nodup := h.nodup
  sorted := h.sorted.imp_of_mem fun ha hb hab => by rw [hs _ ha, hs _ hb]; exact hab
  mem := hmem

end Chains

/-! ## Insertion -/

section Insertion

variable {s s' : Heap} {S H : Set Nat} {i : Fin 128} {l₁ l₂ : List Nat} {p : Nat}

/-- Link writes that splice `p` into bucket `i` give the histogram of
`insert p S`. -/
theorem Binned.of_splice (hH : Headers H) (hSH : S ⊆ H) (hpH : p ∈ H) (hpS : p ∉ S)
    (hi : s.get .size p / 1024 = i) (hb : Binned s S) (hl : Bucket s S i (l₁ ++ l₂))
    (h1 : ∀ a ∈ l₁, s.get .size a ≤ s.get .size p)
    (h2 : ∀ a ∈ l₂, s.get .size p ≤ s.get .size a)
    (hstep : HistoStep H s s')
    (hfh : ∀ j, s'.freeHistogram j =
      if j = i then (l₁ ++ p :: l₂).headD 0 else s.freeHistogram j)
    (hN : ∀ a ∈ H, s'.get .histoNext a =
      if a = p then l₂.headD 0 else if a = l₁.getLastD 0 then p else s.get .histoNext a)
    (hP : ∀ a ∈ H, s'.get .histoPrev a =
      if a = p then l₁.getLastD 0 else if a = l₂.headD 0 then p else s.get .histoPrev a) :
    Binned s' (insert p S) := by
  have hsz : ∀ a ∈ H, s'.get .size a = s.get .size a := fun a ha =>
    hstep.get hH size_notMem_histoFields ha
  have hlS : ∀ a ∈ l₁ ++ l₂, a ∈ S := fun a ha => hl.mem_set ha
  have hpl : p ∉ l₁ ++ l₂ := fun hp => hpS (hlS p hp)
  have hmemH : ∀ a ∈ l₁ ++ p :: l₂, a ∈ H := by
    intro a ha
    by_cases hap : a = p
    · exact hap ▸ hpH
    · exact hSH (hlS a (by simpa [hap] using ha))
  intro j
  by_cases hj : j = i
  · subst hj
    refine ⟨l₁ ++ p :: l₂, ?_, ?_, ?_, ?_, ?_⟩
    · rw [hfh, if_pos rfl]
    · refine hl.linked.insert hl.nodup hpl ?_ ?_ ?_ ?_
      · exact fun h0 => hH.zero_notMem (hSH (hlS 0 (by simp [h0])))
      · exact fun h0 => hH.zero_notMem (hSH (hlS 0 (by simp [h0])))
      · exact fun a ha => hN a (hmemH a ha)
      · exact fun a ha => hP a (hmemH a ha)
    · rw [List.nodup_middle]
      exact List.nodup_cons.mpr ⟨hpl, hl.nodup⟩
    · have hsorted : (l₁ ++ p :: l₂).Pairwise fun a b => s.get .size a ≤ s.get .size b := by
        obtain ⟨hs1, hs2, hs12⟩ := List.pairwise_append.mp hl.sorted
        refine List.pairwise_append.mpr ⟨hs1, List.pairwise_cons.mpr ⟨h2, hs2⟩, ?_⟩
        intro a ha b hb
        rcases List.mem_cons.mp hb with rfl | hb
        · exact h1 a ha
        · exact hs12 a ha b hb
      exact hsorted.imp_of_mem fun ha hb hab => by
        rw [hsz _ (hmemH _ ha), hsz _ (hmemH _ hb)]; exact hab
    · intro a
      by_cases hap : a = p
      · subst hap
        simp [hsz a hpH, hi]
      · have hm := hl.mem a
        simp only [List.mem_append, List.mem_cons, hap, false_or, Set.mem_insert_iff] at hm ⊢
        rw [hm]
        exact and_congr_right fun ha => by rw [hsz a (hSH ha)]
  · -- another size class: none of its nodes was touched
    obtain ⟨l, hlj⟩ := hb j
    have hdisj : ∀ a ∈ l, a ∉ l₁ ++ l₂ := fun a ha ha' =>
      hj (Fin.ext (((hlj.mem a).mp ha).2.symm.trans ((hl.mem a).mp ha').2))
    have hlH : ∀ a ∈ l, a ∈ H := fun a ha => hSH (hlj.mem_set ha)
    have hpos : ∀ a ∈ l, a ≠ 0 := fun a ha h0 => hH.zero_notMem (h0 ▸ hlH a ha)
    have hap : ∀ a ∈ l, a ≠ p := fun a ha he => hpS (he ▸ hlj.mem_set ha)
    refine ⟨l, hlj.congr ?_ ?_ ?_ ?_ ?_⟩
    · rw [hfh, if_neg hj]
    · intro a ha
      have hlast : a ≠ l₁.getLastD 0 :=
        ne_getLastD (hpos a ha) fun h => hdisj a ha (by simp [h])
      rw [hN a (hlH a ha), if_neg (hap a ha), if_neg hlast]
    · intro a ha
      have hhd : a ≠ l₂.headD 0 := ne_headD (hpos a ha) fun h => hdisj a ha (by simp [h])
      rw [hP a (hlH a ha), if_neg (hap a ha), if_neg hhd]
    · exact fun a ha => hsz a (hlH a ha)
    · intro a
      rw [hlj.mem a]
      by_cases hap' : a = p
      · subst hap'
        have hij : s.get .size a / 1024 ≠ j := fun h => hj (Fin.ext (h.symm.trans hi))
        simp [hpS, hsz a hpH, hij]
      · simp only [Set.mem_insert_iff, hap', false_or]
        exact and_congr_right fun ha => by rw [hsz a (hSH ha)]

/-- What `linkHisto` writes, in terms of the two neighbours `q` and `n`
(either may be `NULL`). -/
theorem linkHisto_links (hH : Headers H) (hpH : p ∈ H) {q n : Nat} (hq : q = 0 ∨ q ∈ H)
    (hn : n = 0 ∨ n ∈ H) (hpq : p ≠ q)
    (hnext : n = if q = 0 then s.freeHistogram i else s.get .histoNext q) :
    HistoStep H s (linkHisto s i p q) ∧
    (∀ a ∈ H, (linkHisto s i p q).get .histoNext a =
      if a = p then n else if a = q then p else s.get .histoNext a) ∧
    (∀ a ∈ H, (linkHisto s i p q).get .histoPrev a =
      if a = n then p else if a = p then q else s.get .histoPrev a) ∧
    ∀ j, (linkHisto s i p q).freeHistogram j =
      if j = i ∧ q = 0 then p else s.freeHistogram j := by
  have hpw : IsWord p := hH.word p hpH
  have hH0 : ∀ a ∈ H, a ≠ 0 := fun a ha h0 => hH.zero_notMem (h0 ▸ ha)
  have hfN : Field.histoNext ∈ histoFields := by simp [histoFields]
  have hfP : Field.histoPrev ∈ histoFields := by simp [histoFields]
  have hnw : IsWord n := hn.elim (· ▸ isWord_zero) (hH.word n)
  rcases hq with rfl | hq
  · have hhead : s.freeHistogram i = n := by simpa using hnext.symm
    rcases hn with rfl | hn
    · have hs' : linkHisto s i p 0 =
          ((s.put .histoNext p 0).put .histoPrev p 0).setHisto i p := by
        simp [linkHisto, hhead]
      rw [hs']
      refine ⟨((HistoStep.put s _ hfN hpH).trans (.put _ _ hfP hpH)).trans (.setHisto _ _ _),
        ?_, ?_, ?_⟩
      · intro a ha
        simp [get_putWord hH, hpH, ha, hH0 a ha]
      · intro a ha
        simp [get_putWord hH, hpH, ha, hH0 a ha]
      · intro j
        simp [Heap.setHisto, Function.update_apply]
    · have hs' : linkHisto s i p 0 = (((s.put .histoNext p n).put .histoPrev p 0).put
          .histoPrev n p).setHisto i p := by
        simp [linkHisto, hhead, hH0 n hn]
      rw [hs']
      refine ⟨(((HistoStep.put s _ hfN hpH).trans (.put _ _ hfP hpH)).trans
        (.put _ _ hfP hn)).trans (.setHisto _ _ _), ?_, ?_, ?_⟩
      · intro a ha
        simp [get_putWord hH, hpH, hn, ha, hpw, hnw, hH0 a ha]
      · intro a ha
        simp [get_putWord hH, hpH, hn, ha, hpw, hnw]
      · intro j
        simp [Heap.setHisto, Function.update_apply]
  · have hq0 := hH0 q hq
    have hqn : s.get .histoNext q = n := by simpa [hq0] using hnext.symm
    have hqw : IsWord q := hH.word q hq
    rcases hn with rfl | hn
    · have hs' : linkHisto s i p q =
          ((s.put .histoPrev p q).put .histoNext q p).put .histoNext p 0 := by
        simp [linkHisto, hq0, hqn]
      rw [hs']
      refine ⟨((HistoStep.put s _ hfP hpH).trans (.put _ _ hfN hq)).trans (.put _ _ hfN hpH),
        ?_, ?_, ?_⟩
      · intro a ha
        simp [get_putWord hH, hpH, hq, ha, hpw, hqw]
      · intro a ha
        simp [get_putWord hH, hpH, hq, ha, hpw, hqw, hH0 a ha]
      · intro j
        simp [hq0]
    · have hs' : linkHisto s i p q = (((s.put .histoPrev p q).put .histoNext q p).put
          .histoNext p n).put .histoPrev n p := by
        simp [linkHisto, hq0, hqn, hH0 n hn]
      rw [hs']
      refine ⟨(((HistoStep.put s _ hfP hpH).trans (.put _ _ hfN hq)).trans
        (.put _ _ hfN hpH)).trans (.put _ _ hfP hn), ?_, ?_, ?_⟩
      · intro a ha
        simp [get_putWord hH, hpH, hq, hn, ha, hpw, hqw, hnw]
      · intro a ha
        simp [get_putWord hH, hpH, hq, hn, ha, hpw, hqw, hnw]
      · intro j
        simp [hq0]

/-- `linkHisto` after the last node that is no larger. -/
theorem linkHisto_spec (hH : Headers H) (hSH : S ⊆ H) (hpH : p ∈ H) (hpS : p ∉ S)
    (hi : s.get .size p / 1024 = i) (hb : Binned s S) (hl : Bucket s S i (l₁ ++ l₂))
    (h1 : ∀ a ∈ l₁, s.get .size a ≤ s.get .size p)
    (h2 : ∀ a ∈ l₂, s.get .size p ≤ s.get .size a) :
    HistoStep H s (linkHisto s i p (l₁.getLastD 0)) ∧
      Binned (linkHisto s i p (l₁.getLastD 0)) (insert p S) := by
  have hlH : ∀ a ∈ l₁ ++ l₂, a ∈ H := fun a ha => hSH (hl.mem_set ha)
  have hpl : p ∉ l₁ ++ l₂ := fun hp => hpS (hl.mem_set hp)
  have hp0 : p ≠ 0 := fun h0 => hH.zero_notMem (h0 ▸ hpH)
  have hpq : p ≠ l₁.getLastD 0 := ne_getLastD hp0 fun h => hpl (by simp [h])
  have hpn : p ≠ l₂.headD 0 := ne_headD hp0 fun h => hpl (by simp [h])
  have hq : l₁.getLastD 0 = 0 ∨ l₁.getLastD 0 ∈ H :=
    (getLastD_mem_or l₁ 0).imp And.left fun h => hlH _ (List.mem_append_left _ h)
  have hn : l₂.headD 0 = 0 ∨ l₂.headD 0 ∈ H :=
    (headD_mem_or l₂ 0).imp And.left fun h => hlH _ (List.mem_append_right _ h)
  have hnext : l₂.headD 0 =
      if l₁.getLastD 0 = 0 then s.freeHistogram i else s.get .histoNext (l₁.getLastD 0) := by
    rcases List.eq_nil_or_concat l₁ with rfl | ⟨k, b, rfl⟩
    · exact hl.head.symm
    · have hb0 : b ≠ 0 := fun h0 => hH.zero_notMem (h0 ▸ hlH b (by simp))
      have hlk : Seg (s.get .histoNext) (s.get .histoPrev) 0 (k ++ b :: l₂) 0 := by
        simpa using hl.linked
      rw [List.concat_eq_append, List.getLastD_concat, if_neg hb0, hlk.links.2]
  obtain ⟨hstep, hN, hP, hfh⟩ := linkHisto_links (s := s) (i := i) hH hpH hq hn hpq hnext
  refine ⟨hstep, Binned.of_splice hH hSH hpH hpS hi hb hl h1 h2 hstep ?_ hN ?_⟩
  · intro j
    rw [hfh]
    by_cases hj : j = i
    · subst hj
      rcases getLastD_mem_or l₁ 0 with ⟨h0, hnil⟩ | hmem
      · simp [hnil]
      · have h0 : l₁.getLastD 0 ≠ 0 := fun h =>
          hH.zero_notMem (h ▸ hlH _ (List.mem_append_left _ hmem))
        rw [if_neg (fun h => h0 h.2), if_pos rfl, hl.head]
        cases l₁ with
        | nil => simp at hmem
        | cons b l₁ => rfl
    · simp [hj]
  · intro a ha
    rw [hP a ha]
    by_cases hap : a = p
    · rw [if_pos hap, if_pos hap, if_neg (hap ▸ hpn)]
    · simp [hap]

/-- **`add_node_histo`** puts a block of a size below `MMAP_SIZE` on the
histogram. -/
theorem addNodeHisto_spec (hH : Headers H) (hSH : S ⊆ H) (hpH : p ∈ H) (hpS : p ∉ S)
    (hsize : s.get .size p < mmapSize) (hb : Binned s S) :
    ∃ s', addNodeHisto s p = .ok s' ∧ HistoStep H s s' ∧ Binned s' (insert p S) := by
  obtain ⟨l, hl⟩ := hb ⟨s.get .size p / 1024, div_lt_of_lt_mmapSize hsize⟩
  have hp0 : p ≠ 0 := fun h0 => hH.zero_notMem (h0 ▸ hpH)
  obtain ⟨l₁, l₂, rfl, hslot, h1, h2⟩ :=
    hl.exists_slot hH hSH (s.get .size p)
  refine ⟨_, ?_, linkHisto_spec hH hSH hpH hpS rfl hb hl h1 h2⟩
  rw [addNodeHisto, if_neg hp0, histoIndex_of_lt hsize, ok_bind, hslot, ok_bind, pure_eq_ok]

/-- A block of `MMAP_SIZE` bytes or more has no bucket. -/
theorem addNodeHisto_error (hp0 : p ≠ 0) (hsize : mmapSize ≤ s.get .size p) :
    addNodeHisto s p = .error .addIndex := by
  rw [addNodeHisto, if_neg hp0, histoIndex_of_le hsize]
  rfl

end Insertion

/-! ## Removal -/

section Removal

variable {s s' : Heap} {S H : Set Nat} {i : Fin 128} {l₁ l₂ : List Nat} {p : Nat}

/-- Link writes that cut `p` out of bucket `i` give the histogram of
`S \ {p}`. -/
theorem Binned.of_unsplice (hH : Headers H) (hSH : S ⊆ H) (hb : Binned s S)
    (hl : Bucket s S i (l₁ ++ p :: l₂)) (hstep : HistoStep H s s')
    (hfh : ∀ j, s'.freeHistogram j = if j = i then (l₁ ++ l₂).headD 0 else s.freeHistogram j)
    (hN : ∀ a ∈ H, a ≠ p → s'.get .histoNext a =
      if a = l₁.getLastD 0 then l₂.headD 0 else s.get .histoNext a)
    (hP : ∀ a ∈ H, a ≠ p → s'.get .histoPrev a =
      if a = l₂.headD 0 then l₁.getLastD 0 else s.get .histoPrev a) :
    Binned s' (S \ {p}) := by
  have hsz : ∀ a ∈ H, s'.get .size a = s.get .size a := fun a ha =>
    hstep.get hH size_notMem_histoFields ha
  have hd := hl.nodup
  rw [List.nodup_middle, List.nodup_cons] at hd
  have hlS : ∀ a ∈ l₁ ++ l₂, a ∈ S := fun a ha =>
    hl.mem_set (by rcases List.mem_append.mp ha with h | h <;> simp [h])
  have hlp : ∀ a ∈ l₁ ++ l₂, a ≠ p := fun a ha he => hd.1 (he ▸ ha)
  have h0 : ∀ a ∈ S, a ≠ 0 := fun a ha h => hH.zero_notMem (h ▸ hSH ha)
  intro j
  by_cases hj : j = i
  · subst hj
    refine ⟨l₁ ++ l₂, ?_, ?_, hd.2, ?_, ?_⟩
    · rw [hfh, if_pos rfl]
    · refine hl.linked.unlink hl.nodup ?_ ?_ ?_ ?_
      · exact fun h => h0 0 (hlS 0 (List.mem_append_right _ h)) rfl
      · exact fun h => h0 0 (hlS 0 (List.mem_append_left _ h)) rfl
      · exact fun a ha => hN a (hSH (hlS a ha)) (hlp a ha)
      · exact fun a ha => hP a (hSH (hlS a ha)) (hlp a ha)
    · have hsub : (l₁ ++ l₂).Sublist (l₁ ++ p :: l₂) :=
        (List.sublist_cons_self p l₂).append_left l₁
      exact (hl.sorted.sublist hsub).imp_of_mem fun ha hb hab => by
        rw [hsz _ (hSH (hlS _ ha)), hsz _ (hSH (hlS _ hb))]; exact hab
    · intro a
      have hm := hl.mem a
      by_cases hap : a = p
      · subst hap
        simp [hd.1]
      · simp only [List.mem_append, List.mem_cons, hap, false_or] at hm ⊢
        rw [hm]
        constructor
        · exact fun h => ⟨⟨h.1, hap⟩, by rw [hsz a (hSH h.1)]; exact h.2⟩
        · exact fun h => ⟨h.1.1, by rw [← hsz a (hSH h.1.1)]; exact h.2⟩
  · obtain ⟨l, hlj⟩ := hb j
    have hpi : s.get .size p / 1024 = i := ((hl.mem p).mp (by simp)).2
    have hdisj : ∀ a ∈ l, a ∉ l₁ ++ p :: l₂ := fun a ha ha' =>
      hj (Fin.ext (((hlj.mem a).mp ha).2.symm.trans ((hl.mem a).mp ha').2))
    have hap : ∀ a ∈ l, a ≠ p := fun a ha he => hdisj a ha (by simp [he])
    have hlH : ∀ a ∈ l, a ∈ H := fun a ha => hSH (hlj.mem_set ha)
    refine ⟨l, hlj.congr ?_ ?_ ?_ ?_ ?_⟩
    · rw [hfh, if_neg hj]
    · intro a ha
      have hlast : a ≠ l₁.getLastD 0 :=
        ne_getLastD (h0 a (hlj.mem_set ha)) fun h => hdisj a ha (by simp [h])
      rw [hN a (hlH a ha) (hap a ha), if_neg hlast]
    · intro a ha
      have hhd : a ≠ l₂.headD 0 :=
        ne_headD (h0 a (hlj.mem_set ha)) fun h => hdisj a ha (by simp [h])
      rw [hP a (hlH a ha) (hap a ha), if_neg hhd]
    · exact fun a ha => hsz a (hlH a ha)
    · intro a
      rw [hlj.mem a]
      constructor
      · rintro ⟨ha, hc⟩
        have hne : a ≠ p := fun he => hj (Fin.ext (hc.symm.trans (he ▸ hpi)))
        exact ⟨⟨ha, hne⟩, by rw [hsz a (hSH ha)]; exact hc⟩
      · rintro ⟨⟨ha, -⟩, hc⟩
        exact ⟨ha, by rw [← hsz a (hSH ha)]; exact hc⟩

/-- What `unlinkHisto` writes, in terms of the two neighbours. -/
theorem unlinkHisto_links (hH : Headers H) (hpH : p ∈ H) {q n : Nat} (hq : q = 0 ∨ q ∈ H)
    (hn : n = 0 ∨ n ∈ H) (hprev : s.get .histoPrev p = q) (hnext : s.get .histoNext p = n) :
    HistoStep H s (unlinkHisto s i p) ∧
    (∀ a ∈ H, a ≠ p → (unlinkHisto s i p).get .histoNext a =
      if a = q then n else s.get .histoNext a) ∧
    (∀ a ∈ H, a ≠ p → (unlinkHisto s i p).get .histoPrev a =
      if a = n then q else s.get .histoPrev a) ∧
    ∀ j, (unlinkHisto s i p).freeHistogram j =
      if j = i ∧ q = 0 then n else s.freeHistogram j := by
  have hH0 : ∀ a ∈ H, a ≠ 0 := fun a ha h0 => hH.zero_notMem (h0 ▸ ha)
  have hfN : Field.histoNext ∈ histoFields := by simp [histoFields]
  have hfP : Field.histoPrev ∈ histoFields := by simp [histoFields]
  have hnw : IsWord n := hn.elim (· ▸ isWord_zero) (hH.word n)
  have hqw : IsWord q := hq.elim (· ▸ isWord_zero) (hH.word q)
  rcases hq with rfl | hq
  · rcases hn with rfl | hn
    · have hs' : unlinkHisto s i p =
          ((s.setHisto i 0).put .histoPrev p 0).put .histoNext p 0 := by
        simp [unlinkHisto, hprev, hnext]
      rw [hs']
      refine ⟨((HistoStep.setHisto s _ _).trans (.put _ _ hfP hpH)).trans (.put _ _ hfN hpH),
        ?_, ?_, ?_⟩
      · intro a ha hap
        simp [get_putWord hH, hpH, ha, hap, hH0 a ha]
      · intro a ha hap
        simp [get_putWord hH, hpH, ha, hap, hH0 a ha]
      · intro j
        simp [Heap.setHisto, Function.update_apply]
    · have hs' : unlinkHisto s i p =
          (((s.setHisto i n).put .histoPrev n 0).put .histoPrev p 0).put .histoNext p 0 := by
        simp [unlinkHisto, hprev, hnext, hH0 n hn, Heap.setHisto]
      rw [hs']
      refine ⟨(((HistoStep.setHisto s _ _).trans (.put _ _ hfP hn)).trans
        (.put _ _ hfP hpH)).trans (.put _ _ hfN hpH), ?_, ?_, ?_⟩
      · intro a ha hap
        simp [get_putWord hH, hpH, hn, ha, hap, hH0 a ha]
      · intro a ha hap
        simp [get_putWord hH, hpH, hn, ha, hap]
      · intro j
        simp [Heap.setHisto, Function.update_apply]
  · have hq0 := hH0 q hq
    rcases hn with rfl | hn
    · have hs' : unlinkHisto s i p =
          ((s.put .histoNext q 0).put .histoPrev p 0).put .histoNext p 0 := by
        simp [unlinkHisto, hprev, hnext, hq0]
      rw [hs']
      refine ⟨((HistoStep.put s _ hfN hq).trans (.put _ _ hfP hpH)).trans (.put _ _ hfN hpH),
        ?_, ?_, ?_⟩
      · intro a ha hap
        simp [get_putWord hH, hpH, hq, ha, hap]
      · intro a ha hap
        simp [get_putWord hH, hpH, hq, ha, hap, hH0 a ha]
      · intro j
        simp [hq0]
    · have hs' : unlinkHisto s i p = (((s.put .histoNext q n).put .histoPrev n q).put
          .histoPrev p 0).put .histoNext p 0 := by
        simp [unlinkHisto, hprev, hnext, hq0, hH0 n hn]
      rw [hs']
      refine ⟨(((HistoStep.put s _ hfN hq).trans (.put _ _ hfP hn)).trans
        (.put _ _ hfP hpH)).trans (.put _ _ hfN hpH), ?_, ?_, ?_⟩
      · intro a ha hap
        simp [get_putWord hH, hpH, hq, hn, ha, hap, hnw, hqw]
      · intro a ha hap
        simp [get_putWord hH, hpH, hq, hn, ha, hap, hnw, hqw]
      · intro j
        simp [hq0]

/-- **`remove_node_histo`** takes a free block off the histogram. -/
theorem removeNodeHisto_spec (hH : Headers H) (hSH : S ⊆ H) (hpS : p ∈ S)
    (hfree : s.isFree p = true) (hsize : s.get .size p < mmapSize) (hb : Binned s S) :
    ∃ s', removeNodeHisto s p = .ok s' ∧ HistoStep H s s' ∧ Binned s' (S \ {p}) := by
  obtain ⟨l, hl⟩ := hb ⟨s.get .size p / 1024, div_lt_of_lt_mmapSize hsize⟩
  obtain ⟨l₁, l₂, rfl⟩ := List.append_of_mem ((hl.mem p).mpr ⟨hpS, rfl⟩)
  have hlH : ∀ a ∈ l₁ ++ p :: l₂, a ∈ H := fun a ha => hSH (hl.mem_set ha)
  have hp0 : p ≠ 0 := fun h0 => hH.zero_notMem (h0 ▸ hSH hpS)
  have hq : l₁.getLastD 0 = 0 ∨ l₁.getLastD 0 ∈ H :=
    (getLastD_mem_or l₁ 0).imp And.left fun h => hlH _ (List.mem_append_left _ h)
  have hn : l₂.headD 0 = 0 ∨ l₂.headD 0 ∈ H :=
    (headD_mem_or l₂ 0).imp And.left fun h =>
      hlH _ (List.mem_append_right _ (List.mem_cons_of_mem _ h))
  obtain ⟨hprev, hnext⟩ := hl.linked.links
  have hne : s.freeHistogram ⟨s.get .size p / 1024, div_lt_of_lt_mmapSize hsize⟩ ≠ 0 := by
    rw [hl.head]
    intro h0
    cases l₁ with
    | nil => exact hp0 h0
    | cons a l₁ => exact hH.zero_notMem (h0 ▸ hlH a (by simp))
  obtain ⟨hstep, hN, hP, hfh⟩ := unlinkHisto_links
    (i := ⟨s.get .size p / 1024, div_lt_of_lt_mmapSize hsize⟩) hH (hSH hpS) hq hn hprev hnext
  refine ⟨_, ?_, hstep, hb.of_unsplice hH hSH hl hstep ?_ hN hP⟩
  · rw [removeNodeHisto, if_neg hp0, hfree]
    simp only [Bool.not_true, Bool.false_eq_true, if_false, histoIndex_of_lt hsize, ok_bind,
      if_neg hne, pure_eq_ok]
  · intro j
    rw [hfh]
    by_cases hj : j = ⟨s.get .size p / 1024, div_lt_of_lt_mmapSize hsize⟩
    · rw [if_pos hj]
      rcases getLastD_mem_or l₁ 0 with ⟨h0, rfl⟩ | hmem
      · simp [hj]
      · have h0 : l₁.getLastD 0 ≠ 0 := fun h =>
          hH.zero_notMem (h ▸ hlH _ (List.mem_append_left _ hmem))
        rw [if_neg (fun h => h0 h.2), hj, hl.head]
        cases l₁ with
        | nil => simp at hmem
        | cons b l₁ => rfl
    · simp [hj]

/-- An allocated block is left where it is, even if it is on the histogram. -/
theorem removeNodeHisto_of_not_free (hfree : s.isFree p = false) :
    removeNodeHisto s p = .ok s := by
  simp [removeNodeHisto, hfree]

end Removal

end OsAllHw.Malloc
