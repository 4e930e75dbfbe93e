import OsAllHw.Lib.Dll
import OsAllHw.Malloc2.Blocks

/-!
# The free list in memory

What `remove_node` and `add_node` write, and what the two walks over the
list find. Both functions only touch links, so everything else a header
holds is as before (`LinkStep`).
-/

namespace OsAllHw.Malloc2

open Lib

/-- Header addresses a list may run over. -/
structure Headers (H : Set Nat) : Prop where
  zero_notMem : 0 ∉ H
  word : ∀ p ∈ H, p < 2 ^ 64
  spaced : Spaced metaSize H

def linkFields : Set Field := {.next, .prev}

/-- Only links of the headers in `H`, and the head of the list, were written. -/
structure LinkStep (H : Set Nat) (s s' : Heap) : Prop where
  vars : ∃ m fl, s' = { s with mem := m, freeList := fl }
  get : ∀ f ∉ linkFields, ∀ a ∈ H, s'.get f a = s.get f a
  frame : ∀ x ∉ recordBytes metaSize H, s'.mem x = s.mem x

section Links

variable {H : Set Nat} {s s' s'' : Heap} {f g : Field} {p q n v : Nat}

/-- Field update. -/
theorem get_put (hH : Headers H) (s : Heap) (hp : p ∈ H) (hq : q ∈ H)
    (hv : v < 256 ^ mallocMetadata.width f) :
    (s.put f p v).get g q = if q = p ∧ g = f then v else s.get g q :=
  mallocMetadata.load_store hH.spaced s.mem hp hq hv

theorem get_put_next (hH : Headers H) (s : Heap) (hp : p ∈ H) (hq : q ∈ H) (hv : v < 2 ^ 64) :
    (s.put .next p v).get g q = if q = p ∧ g = .next then v else s.get g q :=
  get_put hH s hp hq hv

theorem get_put_prev (hH : Headers H) (s : Heap) (hp : p ∈ H) (hq : q ∈ H) (hv : v < 2 ^ 64) :
    (s.put .prev p v).get g q = if q = p ∧ g = .prev then v else s.get g q :=
  get_put hH s hp hq hv

theorem put_frame (hp : p ∈ H) : ∀ x ∉ recordBytes metaSize H, (s.put f p v).mem x = s.mem x :=
  fun _ hx => mallocMetadata.store_of_outside s.mem hp hx

@[simp] theorem put_freeList : (s.put f p v).freeList = s.freeList := rfl

@[simp] theorem get_setFreeList (l : Nat) : Heap.get { s with freeList := l } f p = s.get f p := rfl

theorem LinkStep.trans (h : LinkStep H s s') (h' : LinkStep H s' s'') : LinkStep H s s'' := by
  obtain ⟨⟨m, fl, rfl⟩, hget, hframe⟩ := h
  obtain ⟨⟨m', fl', rfl⟩, hget', hframe'⟩ := h'
  exact ⟨⟨m', fl', rfl⟩, fun f hf a ha => (hget' f hf a ha).trans (hget f hf a ha),
    fun x hx => (hframe' x hx).trans (hframe x hx)⟩

theorem LinkStep.put (hH : Headers H) (s : Heap) (hf : f ∈ linkFields) (hp : p ∈ H)
    (hv : v < 2 ^ 64) : LinkStep H s (s.put f p v) := by
  have hw : mallocMetadata.width f = 8 := by
    rcases hf with rfl | rfl <;> rfl
  refine ⟨⟨_, _, rfl⟩, fun g hg a ha => ?_, put_frame hp⟩
  rw [get_put hH s hp ha (by rw [hw]; exact hv), if_neg]
  rintro ⟨-, rfl⟩
  exact hg hf

theorem LinkStep.setHead (s : Heap) (l : Nat) : LinkStep H s { s with freeList := l } :=
  ⟨⟨_, _, rfl⟩, fun _ _ _ _ => rfl, fun _ _ => rfl⟩

theorem next_mem : Field.next ∈ linkFields := .inl rfl

theorem prev_mem : Field.prev ∈ linkFields := .inr rfl

theorem Headers.word_of (hH : Headers H) (hq : q = 0 ∨ q ∈ H) : q < 2 ^ 64 :=
  hq.elim (· ▸ Nat.two_pow_pos 64) (hH.word q)

theorem Headers.ne_zero (hH : Headers H) (hq : q ∈ H) : q ≠ 0 := fun h0 => hH.zero_notMem (h0 ▸ hq)

/-- What **`remove_node`** writes for a node between `q` and `n` (0 at the
ends of the list). -/
theorem removeNode_links (hH : Headers H) (hlist : s.freeList ≠ 0) (hp : p ∈ H)
    (hq : q = 0 ∨ q ∈ H) (hn : n = 0 ∨ n ∈ H) (hprev : s.get .prev p = q)
    (hnext : s.get .next p = n) :
    LinkStep H s (removeNode s p) ∧
    (∀ a ∈ H, a ≠ p → (removeNode s p).get .next a = if a = q then n else s.get .next a) ∧
    (∀ a ∈ H, a ≠ p → (removeNode s p).get .prev a = if a = n then q else s.get .prev a) ∧
    (removeNode s p).freeList = if q = 0 then n else s.freeList := by
  have hp0 := hH.ne_zero hp
  have hqw := hH.word_of hq
  have hnw := hH.word_of hn
  have hguard : ¬(listIsEmpty s = true ∨ p = 0) := by simp [listIsEmpty, hlist, hp0]
  -- the two writes to the node itself change no other header
  have hself : ∀ t : Heap, ∀ g, ∀ a ∈ H, a ≠ p →
      ((t.put .prev p 0).put .next p 0).get g a = t.get g a := by
    intro t g a ha hap
    simp [get_put_next hH, get_put_prev hH, hp, ha, hap]
  have hclear : ∀ t : Heap, LinkStep H t ((t.put .prev p 0).put .next p 0) := fun t =>
    (LinkStep.put hH t prev_mem hp (by decide)).trans (.put hH _ next_mem hp (by decide))
  rw [removeNode, if_neg hguard, hprev, hnext]
  rcases hq with rfl | hq
  · -- first node
    rcases hn with rfl | hn
    · simp only [if_true]
      refine ⟨(LinkStep.setHead s 0).trans (hclear _), fun a ha hap => ?_, fun a ha hap => ?_, rfl⟩
      · rw [hself _ _ a ha hap, if_neg (hH.ne_zero ha)]
        rfl
      · rw [hself _ _ a ha hap, if_neg (hH.ne_zero ha)]
        rfl
    · simp only [if_true, if_neg (hH.ne_zero hn)]
      refine ⟨((LinkStep.setHead s n).trans (.put hH _ prev_mem hn (by decide))).trans (hclear _),
        fun a ha hap => ?_, fun a ha hap => ?_, rfl⟩
      · rw [hself _ _ a ha hap, if_neg (hH.ne_zero ha), get_put_prev hH _ hn ha (by decide)]
        simp
      · rw [hself _ _ a ha hap, get_put_prev hH _ hn ha (by decide)]
        simp
  · rw [if_neg (hH.ne_zero hq)]
    rcases hn with rfl | hn
    · simp only [if_true]
      refine ⟨(LinkStep.put hH s next_mem hq hnw).trans (hclear _), fun a ha hap => ?_,
        fun a ha hap => ?_, by simp [hH.ne_zero hq]⟩
      · rw [hself _ _ a ha hap, get_put_next hH _ hq ha hnw]
        simp
      · rw [hself _ _ a ha hap, get_put_next hH _ hq ha hnw, if_neg (hH.ne_zero ha)]
        simp
    · simp only [if_neg (hH.ne_zero hn)]
      refine ⟨((LinkStep.put hH s next_mem hq hnw).trans (.put hH _ prev_mem hn hqw)).trans
        (hclear _), fun a ha hap => ?_, fun a ha hap => ?_, by simp [hH.ne_zero hq]⟩
      · rw [hself _ _ a ha hap, get_put_prev hH _ hn ha hqw, get_put_next hH _ hq ha hnw]
        simp
      · rw [hself _ _ a ha hap, get_put_prev hH _ hn ha hqw, get_put_next hH _ hq ha hnw]
        simp

/-- What **`add_node`** writes for a new node between `q` and `n`. -/
theorem addNode_links (hH : Headers H) (hp : p ∈ H) (hq : q = 0 ∨ q ∈ H) (hn : n = 0 ∨ n ∈ H)
    (hpq : p ≠ q) (hpn : p ≠ n) (hnext : if q = 0 then s.freeList = n else s.get .next q = n) :
    LinkStep H s (addNode s p q) ∧
    (∀ a ∈ H, (addNode s p q).get .next a =
      if a = p then n else if a = q then p else s.get .next a) ∧
    (∀ a ∈ H, (addNode s p q).get .prev a =
      if a = p then q else if a = n then p else s.get .prev a) ∧
    (addNode s p q).freeList = if q = 0 then p else s.freeList := by
  have hpw := hH.word p hp
  have hqw := hH.word_of hq
  have hnw := hH.word_of hn
  rcases hq with rfl | hq
  · -- the head of the list
    rw [if_pos rfl] at hnext
    subst hnext
    rcases hn with h0 | hn
    · have hs' : addNode s p 0 =
          { (s.put .next p 0).put .prev p 0 with freeList := p } := by
        simp [addNode, h0]
      rw [hs', h0]
      refine ⟨((LinkStep.put hH s next_mem hp (by decide)).trans
        (.put hH _ prev_mem hp (by decide))).trans (.setHead _ p), fun a ha => ?_, fun a ha => ?_,
        rfl⟩
      · rw [get_setFreeList, get_put_prev hH _ hp ha (by decide),
          get_put_next hH _ hp ha (by decide)]
        simp [hH.ne_zero ha]
      · rw [get_setFreeList, get_put_prev hH _ hp ha (by decide),
          get_put_next hH _ hp ha (by decide)]
        simp [hH.ne_zero ha]
    · have hs' : addNode s p 0 = { ((s.put .next p s.freeList).put .prev s.freeList p).put .prev p 0
          with freeList := p } := by
        simp [addNode, hH.ne_zero hn]
      rw [hs']
      refine ⟨(((LinkStep.put hH s next_mem hp hnw).trans (.put hH _ prev_mem hn hpw)).trans
        (.put hH _ prev_mem hp (by decide))).trans (.setHead _ p), fun a ha => ?_, fun a ha => ?_,
        rfl⟩
      · rw [get_setFreeList, get_put_prev hH _ hp ha (by decide), get_put_prev hH _ hn ha hpw,
          get_put_next hH _ hp ha hnw]
        simp [hH.ne_zero ha]
      · rw [get_setFreeList, get_put_prev hH _ hp ha (by decide), get_put_prev hH _ hn ha hpw,
          get_put_next hH _ hp ha hnw]
        simp
  · rw [if_neg (hH.ne_zero hq)] at hnext
    rw [addNode, if_neg (hH.ne_zero hq)]
    simp only [hnext]
    rcases hn with rfl | hn
    · simp only [if_true]
      refine ⟨((LinkStep.put hH s prev_mem hp hqw).trans (.put hH _ next_mem hq hpw)).trans
        (.put hH _ next_mem hp hnw), fun a ha => ?_, fun a ha => ?_, by simp [hH.ne_zero hq]⟩
      · rw [get_put_next hH _ hp ha hnw, get_put_next hH _ hq ha hpw, get_put_prev hH _ hp ha hqw]
        simp
      · rw [get_put_next hH _ hp ha hnw, get_put_next hH _ hq ha hpw, get_put_prev hH _ hp ha hqw]
        simp [hH.ne_zero ha]
    · simp only [if_neg (hH.ne_zero hn)]
      refine ⟨(((LinkStep.put hH s prev_mem hp hqw).trans (.put hH _ next_mem hq hpw)).trans
        (.put hH _ next_mem hp hnw)).trans (.put hH _ prev_mem hn hpw), fun a ha => ?_,
        fun a ha => ?_, by simp [hH.ne_zero hq]⟩
      · rw [get_put_prev hH _ hn ha hpw, get_put_next hH _ hp ha hnw, get_put_next hH _ hq ha hpw,
          get_put_prev hH _ hp ha hqw]
        simp
      · rw [get_put_prev hH _ hn ha hpw, get_put_next hH _ hp ha hnw, get_put_next hH _ hq ha hpw,
          get_put_prev hH _ hp ha hqw]
        by_cases hap : a = p
        · simp [hap, hpn]
        · simp [hap]

end Links

/-! ## The walks -/

section Walks

variable {s : Heap} {l l₁ l₂ : List Nat} {q p r fuel : Nat}

/-- The search stops at the first block that is large enough. -/
theorem findFit_eq (h : Seg (s.get .next) (s.get .prev) q l 0) (h0 : 0 ∉ l)
    (hfuel : l.length < fuel) :
    findFit s r fuel (l.headD 0) =
      .ok ((l.find? fun a => decide (r ≤ s.get .size a)).getD 0) := by
  induction l generalizing q fuel with
  | nil =>
      obtain ⟨fuel, rfl⟩ : ∃ n, fuel = n + 1 := ⟨fuel - 1, by omega⟩
      simp [findFit]
  | cons a l ih =>
      obtain ⟨fuel, rfl⟩ : ∃ n, fuel = n + 1 := ⟨fuel - 1, by omega⟩
      obtain ⟨-, hn, hrest⟩ := h
      obtain ⟨ha0, hl0⟩ : ¬0 = a ∧ 0 ∉ l := by simpa using h0
      rw [List.headD_cons, findFit, if_neg (Ne.symm ha0)]
      by_cases hs : r ≤ s.get .size a
      · rw [if_pos hs, List.find?_cons_of_pos (by simpa using hs)]
        rfl
      · rw [if_neg hs, List.find?_cons_of_neg (by simpa using hs), hn]
        exact ih hrest hl0 (by simpa using hfuel)

/-- The walk of `sfree` stops behind the nodes below `p`. -/
theorem findPlace_eq (h : Seg (s.get .next) (s.get .prev) q (l₁ ++ l₂) 0) (h0 : 0 ∉ l₁ ++ l₂)
    (h1 : ∀ a ∈ l₁, a ≤ p) (h2 : ∀ a ∈ l₂, p < a) (hfuel : (l₁ ++ l₂).length < fuel) :
    findPlace s p fuel ((l₁ ++ l₂).headD 0) r = .ok (l₁.getLastD r) := by
  induction l₁ generalizing q fuel r with
  | nil =>
      obtain ⟨fuel, rfl⟩ : ∃ n, fuel = n + 1 := ⟨fuel - 1, by omega⟩
      cases l₂ with
      | nil => simp [findPlace]
      | cons a l =>
          have ha0 : ¬0 = a := fun he => h0 (by simp [he])
          rw [List.nil_append, List.headD_cons, findPlace, if_neg (Ne.symm ha0),
            if_pos (h2 a (by simp))]
          rfl
  | cons a l ih =>
      obtain ⟨fuel, rfl⟩ : ∃ n, fuel = n + 1 := ⟨fuel - 1, by omega⟩
      obtain ⟨-, hn, hrest⟩ := h
      have ha0 : ¬0 = a := fun he => h0 (by simp [he])
      have hl0 : 0 ∉ l ++ l₂ := fun hm => h0 (List.mem_cons_of_mem _ hm)
      rw [List.cons_append, List.headD_cons, findPlace, if_neg (Ne.symm ha0),
        if_neg (Nat.not_lt.mpr (h1 a (by simp))), hn, List.getLastD_cons]
      exact ih hrest hl0 (fun b hb => h1 b (by simp [hb])) (by simpa using hfuel)

end Walks

end OsAllHw.Malloc2
