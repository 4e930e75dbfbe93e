import Mathlib

/-!
# Doubly linked chains

A chain is read off two link maps `next` and `prev`. `Seg next prev q l r`
says that `l` lists the nodes of one in order, that its first node's `prev`
is `q` and its last node's `next` is `r` (both may be a null value, a
sentinel or another node). Insertion and removal are stated over arbitrary
new link maps, pinned only at the nodes of the chain, so a client may get
them from a memory, a record of fields or a function update.
-/

namespace Lib

variable {α : Type*}

/-- `l` is a doubly linked chain between `q` and `r`. -/
def Seg (next prev : α → α) : α → List α → α → Prop
  | _, [], _ => True
  | q, a :: l, r => prev a = q ∧ next a = l.headD r ∧ Seg next prev a l r

/-- The links lead from `a` over the nodes `l` to `b`. -/
def Path (next : α → α) : α → List α → α → Prop
  | a, [], b => next a = b
  | a, c :: l, b => next a = c ∧ Path next c l b

theorem Path.concat {next : α → α} {a b c : α} {l : List α} (h : Path next a l c)
    (hc : next c = b) : Path next a (l ++ [c]) b := by
  induction l generalizing a with
  | nil => exact ⟨h, hc⟩
  | cons d l ih => exact ⟨h.1, ih h.2⟩

/-- The last node is one of the nodes, unless there is none. -/
theorem getLastD_mem_or (l : List α) (z : α) : l.getLastD z = z ∧ l = [] ∨ l.getLastD z ∈ l := by
  cases l with
  | nil => exact .inl ⟨rfl, rfl⟩
  | cons a l =>
      rw [List.getLastD_cons]
      exact .inr List.getLastD_mem_cons

theorem headD_mem_or (l : List α) (z : α) : l.headD z = z ∧ l = [] ∨ l.headD z ∈ l := by
  cases l with
  | nil => exact .inl ⟨rfl, rfl⟩
  | cons a l => exact .inr (by simp)

theorem ne_getLastD {l : List α} {a z : α} (h0 : a ≠ z) (h : a ∉ l) : a ≠ l.getLastD z := by
  rcases getLastD_mem_or l z with ⟨hz, -⟩ | hmem
  · exact fun he => h0 (he.trans hz)
  · exact fun he => h (he ▸ hmem)

theorem ne_headD {l : List α} {a z : α} (h0 : a ≠ z) (h : a ∉ l) : a ≠ l.headD z := by
  rcases headD_mem_or l z with ⟨hz, -⟩ | hmem
  · exact fun he => h0 (he.trans hz)
  · exact fun he => h (he ▸ hmem)

namespace Seg

variable {next prev next' prev' : α → α} {q r p : α} {l l₁ l₂ : List α}

@[simp] theorem nil : Seg next prev q [] r := trivial

theorem append_iff : Seg next prev q (l₁ ++ l₂) r ↔
    Seg next prev q l₁ (l₂.headD r) ∧ Seg next prev (l₁.getLastD q) l₂ r := by
  induction l₁ generalizing q with
  | nil => simp
  | cons a l ih =>
      have hhead : (l ++ l₂).headD r = l.headD (l₂.headD r) := by cases l <;> rfl
      simp only [List.cons_append, Seg, ih, hhead, List.getLastD_cons, and_assoc]

/-- The links of a node inside a chain. -/
theorem links (h : Seg next prev q (l₁ ++ p :: l₂) r) :
    prev p = l₁.getLastD q ∧ next p = l₂.headD r := by
  obtain ⟨-, hp, hn, -⟩ := append_iff.mp h
  exact ⟨hp, hn⟩

/-- The link out of a chain. -/
theorem getLastD_next (h : Seg next prev q l r) (hl : l ≠ []) : next (l.getLastD q) = r := by
  induction l generalizing q with
  | nil => exact absurd rfl hl
  | cons a l ih =>
      rw [List.getLastD_cons]
      cases l with
      | nil => exact h.2.1
      | cons b l => exact ih h.2.2 (List.cons_ne_nil b l)

/-- A chain depends only on the links of its own nodes. -/
theorem congr (hn : ∀ a ∈ l, next' a = next a) (hp : ∀ a ∈ l, prev' a = prev a)
    (h : Seg next prev q l r) : Seg next' prev' q l r := by
  induction l generalizing q with
  | nil => trivial
  | cons a l ih =>
      obtain ⟨h1, h2, h3⟩ := h
      refine ⟨(hp a (by simp)).trans h1, (hn a (by simp)).trans h2, ih ?_ ?_ h3⟩
      · exact fun b hb => hn b (by simp [hb])
      · exact fun b hb => hp b (by simp [hb])

/-- **Read forwards**, from its first node to its last. -/
theorem path_next {a b : α} (h : Seg next prev q (a :: (l ++ [b])) r) : Path next a l b := by
  induction l generalizing q a with
  | nil => exact h.2.1
  | cons c l ih => exact ⟨h.2.1, ih h.2.2⟩

/-- **Read backwards.** -/
theorem path_prev {a b : α} (h : Seg next prev q (a :: (l ++ [b])) r) :
    Path prev b l.reverse a := by
  induction l generalizing q a with
  | nil => exact h.2.2.1
  | cons c l ih =>
      rw [List.reverse_cons]
      exact (ih h.2.2).concat h.2.2.1

variable [DecidableEq α]

/-- Redirect the last node. -/
theorem relast {r' : α} (hd : l.Nodup) (hp : ∀ a ∈ l, prev' a = prev a)
    (hn : ∀ a ∈ l, next' a = if a = l.getLastD q then r' else next a)
    (h : Seg next prev q l r) : Seg next' prev' q l r' := by
  induction l generalizing q with
  | nil => trivial
  | cons a l ih =>
      obtain ⟨h1, h2, h3⟩ := h
      obtain ⟨ha, hd'⟩ := List.nodup_cons.mp hd
      rw [List.getLastD_cons] at hn
      refine ⟨(hp a (by simp)).trans h1, ?_, ih hd' (fun b hb => hp b (by simp [hb])) ?_ h3⟩
      · rw [hn a (by simp)]
        cases l with
        | nil => simp
        | cons b l =>
            -- the last node lies in the tail, so `a` keeps its link
            have hlast : (b :: l).getLastD a ∈ b :: l := by
              rw [List.getLastD_cons]
              exact List.getLastD_mem_cons
            have hne : a ≠ (b :: l).getLastD a := fun he => ha (he ▸ hlast)
            rw [if_neg hne, h2]
            rfl
      · exact fun b hb => hn b (by simp [hb])

/-- Redirect the first node. -/
theorem rehead {q' : α} (hd : l.Nodup) (hn : ∀ a ∈ l, next' a = next a)
    (hp : ∀ a ∈ l, prev' a = if a = l.headD r then q' else prev a)
    (h : Seg next prev q l r) : Seg next' prev' q' l r := by
  cases l with
  | nil => trivial
  | cons a l =>
      obtain ⟨-, h2, h3⟩ := h
      refine ⟨by simp [hp a], (hn a (by simp)).trans h2, h3.congr ?_ ?_⟩
      · exact fun b hb => hn b (by simp [hb])
      · intro b hb
        have hba : b ≠ a := fun he => (List.nodup_cons.mp hd).1 (he ▸ hb)
        rw [hp b (by simp [hb])]
        exact if_neg (by simpa using hba)

/-- **Insertion** of `p` between `l₁` and `l₂`. -/
theorem insert (hd : (l₁ ++ l₂).Nodup) (hp : p ∉ l₁ ++ l₂) (hq : q ∉ l₂) (hr : r ∉ l₁)
    (hn : ∀ a ∈ l₁ ++ p :: l₂, next' a =
      if a = p then l₂.headD r else if a = l₁.getLastD q then p else next a)
    (hv : ∀ a ∈ l₁ ++ p :: l₂, prev' a =
      if a = p then l₁.getLastD q else if a = l₂.headD r then p else prev a)
    (h : Seg next prev q (l₁ ++ l₂) r) : Seg next' prev' q (l₁ ++ p :: l₂) r := by
  obtain ⟨h1, h2⟩ := append_iff.mp h
  obtain ⟨hd1, hd2, hd12⟩ := List.nodup_append.mp hd
  have hp1 : ∀ a ∈ l₁, a ≠ p := fun a ha he => hp (by simp [← he, ha])
  have hp2 : ∀ a ∈ l₂, a ≠ p := fun a ha he => hp (by simp [← he, ha])
  refine append_iff.mpr ⟨h1.relast hd1 ?_ ?_, ?_, ?_, h2.rehead hd2 ?_ ?_⟩
  · intro a ha
    have hne : a ≠ l₂.headD r :=
      ne_headD (fun he => hr (he ▸ ha)) (fun h2 => hd12 a ha a h2 rfl)
    rw [hv a (by simp [ha]), if_neg (hp1 a ha), if_neg hne]
  · intro a ha
    rw [hn a (by simp [ha]), if_neg (hp1 a ha)]
    rfl
  · rw [hv p (by simp), if_pos rfl]
  · rw [hn p (by simp), if_pos rfl]
  · intro a ha
    have hne : a ≠ l₁.getLastD q :=
      ne_getLastD (fun he => hq (he ▸ ha)) (fun h1 => hd12 a h1 a ha rfl)
    rw [hn a (by simp [ha]), if_neg (hp2 a ha), if_neg hne]
  · intro a ha
    rw [hv a (by simp [ha]), if_neg (hp2 a ha)]

/-- **Removal** of `p`. -/
theorem unlink (hd : (l₁ ++ p :: l₂).Nodup) (hq : q ∉ l₂) (hr : r ∉ l₁)
    (hn : ∀ a ∈ l₁ ++ l₂, next' a = if a = l₁.getLastD q then l₂.headD r else next a)
    (hv : ∀ a ∈ l₁ ++ l₂, prev' a = if a = l₂.headD r then l₁.getLastD q else prev a)
    (h : Seg next prev q (l₁ ++ p :: l₂) r) : Seg next' prev' q (l₁ ++ l₂) r := by
  obtain ⟨h1, -, -, h2⟩ := append_iff.mp h
  obtain ⟨hd1, hd2, hd12⟩ := List.nodup_append.mp hd
  refine append_iff.mpr ⟨h1.relast hd1 ?_ ?_, h2.rehead (List.nodup_cons.mp hd2).2 ?_ ?_⟩
  · intro a ha
    have hne : a ≠ l₂.headD r :=
      ne_headD (fun he => hr (he ▸ ha)) (fun h2 => hd12 a ha a (by simp [h2]) rfl)
    rw [hv a (by simp [ha]), if_neg hne]
  · exact fun a ha => hn a (by simp [ha])
  · intro a ha
    have hne : a ≠ l₁.getLastD q :=
      ne_getLastD (fun he => hq (he ▸ ha)) (fun h1 => hd12 a h1 a (by simp [ha]) rfl)
    rw [hn a (by simp [ha]), if_neg hne]
  · exact fun a ha => hv a (by simp [ha])

end Seg

end Lib
