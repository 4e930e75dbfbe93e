import Mathlib

/-!
# Insertion behind equal keys

A list ordered by a key. A new element goes in front of the first one with a
larger key, so behind those with its own. `InOrder came l` says that `l` is
ordered, and that of the elements that came the ones with the same key stand
in `l` as they came, except that the earliest may be gone.
-/

namespace Lib

variable {α κ : Type*} [LinearOrder κ]

def insertLast (key : α → κ) (a : α) : List α → List α
  | [] => [a]
  | b :: l => if key a < key b then a :: b :: l else b :: insertLast key a l

structure InOrder (key : α → κ) (came l : List α) : Prop where
  sorted : l.Pairwise fun a b => key a ≤ key b
  stable : ∀ k, (l.filter fun a => key a = k) <:+ came.filter fun a => key a = k

variable {key : α → κ} {came l l' : List α}

/-- **Where it goes**: behind the smaller and the equal keys. -/
theorem insertLast_split (hsorted : l.Pairwise fun a b => key a ≤ key b) (a : α) :
    ∃ l₁ l₂, l = l₁ ++ l₂ ∧ insertLast key a l = l₁ ++ a :: l₂ ∧
      (∀ b ∈ l₁, key b ≤ key a) ∧ ∀ b ∈ l₂, key a < key b := by
  induction l with
  | nil => exact ⟨[], [], rfl, rfl, by simp, by simp⟩
  | cons b l ih =>
      obtain ⟨hle, hrest⟩ := List.pairwise_cons.mp hsorted
      rw [insertLast]
      by_cases hlt : key a < key b
      · rw [if_pos hlt]
        refine ⟨[], b :: l, rfl, rfl, by simp, ?_⟩
        intro c hc
        rcases List.mem_cons.mp hc with rfl | hc
        · exact hlt
        · exact hlt.trans_le (hle c hc)
      · rw [if_neg hlt]
        obtain ⟨l₁, l₂, rfl, hinsert, hbelow, habove⟩ := ih hrest
        refine ⟨b :: l₁, l₂, rfl, by rw [hinsert, List.cons_append], ?_, habove⟩
        exact List.forall_mem_cons.mpr ⟨not_lt.mp hlt, hbelow⟩

namespace InOrder

theorem nil : InOrder key [] ([] : List α) := ⟨.nil, fun _ => List.suffix_rfl⟩

theorem insert (h : InOrder key came l) (a : α) :
    InOrder key (came ++ [a]) (insertLast key a l) := by
  obtain ⟨l₁, l₂, rfl, hinsert, hbelow, habove⟩ := insertLast_split h.sorted a
  obtain ⟨hsorted₁, hsorted₂, hbetween⟩ := List.pairwise_append.mp h.sorted
  rw [hinsert]
  constructor
  · refine List.pairwise_append.mpr ⟨hsorted₁, ?_, ?_⟩
    · exact List.pairwise_cons.mpr ⟨fun b hb => (habove b hb).le, hsorted₂⟩
    · intro b hb c hc
      rcases List.mem_cons.mp hc with rfl | hc
      · exact hbelow b hb
      · exact hbetween b hb c hc
  · intro k
    have hstable := h.stable k
    rw [List.filter_append] at hstable ⊢
    rw [List.filter_append]
    by_cases hk : key a = k
    · -- nothing with this key stands behind it
      have hnone : l₂.filter (fun b => key b = k) = [] := by
        refine List.filter_eq_nil_iff.mpr fun b hb => ?_
        have hlt := habove b hb
        simpa using (hk ▸ hlt).ne'
      rw [hnone, List.append_nil] at hstable
      rw [List.filter_cons_of_pos (by simpa using hk), List.filter_cons_of_pos (by simpa using hk),
        hnone, List.filter_nil]
      exact List.suffix_append_self_iff.mpr hstable
    · rw [List.filter_cons_of_neg (by simpa using hk), List.filter_cons_of_neg (by simpa using hk),
        List.filter_nil, List.append_nil]
      exact hstable

/-- The first elements can go. -/
theorem suffix (h : InOrder key came l) (hl : l' <:+ l) : InOrder key came l' :=
  ⟨h.sorted.sublist hl.sublist, fun k => (hl.filter _).trans (h.stable k)⟩

end InOrder

end Lib
