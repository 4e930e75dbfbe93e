import Mathlib

/-!
# Reading line by line

A reader with a buffer of limited size: it takes up to `n` elements, and
stops after the end of a line.
-/

namespace Lib

variable {α : Type} [DecidableEq α] {nl : α} {n : Nat}

/-- The line a reader takes, and what it leaves. -/
def takeLine (nl : α) : Nat → List α → List α × List α
  | 0, l => ([], l)
  | _ + 1, [] => ([], [])
  | n + 1, a :: l =>
      if a = nl then ([a], l) else (a :: (takeLine nl n l).1, (takeLine nl n l).2)

theorem takeLine_append (nl : α) (n : Nat) (l : List α) :
    (takeLine nl n l).1 ++ (takeLine nl n l).2 = l := by
  induction n generalizing l with
  | zero => rfl
  | succ n ih =>
      cases l with
      | nil => rfl
      | cons a l =>
          rw [takeLine]
          split
          · rfl
          · exact congrArg (a :: ·) (ih l)

theorem takeLine_length (nl : α) (n : Nat) (l : List α) : (takeLine nl n l).1.length ≤ n := by
  induction n generalizing l with
  | zero => exact Nat.le_refl 0
  | succ n ih =>
      cases l with
      | nil => exact Nat.zero_le _
      | cons a l =>
          rw [takeLine]
          split
          · exact Nat.succ_le_succ (Nat.zero_le n)
          · exact Nat.succ_le_succ (ih l)

theorem takeLine_ne_nil {l : List α} (hn : 0 < n) (hl : l ≠ []) : (takeLine nl n l).1 ≠ [] := by
  obtain ⟨n, rfl⟩ := Nat.exists_eq_succ_of_ne_zero hn.ne'
  obtain ⟨a, l, rfl⟩ := List.exists_cons_of_ne_nil hl
  rw [takeLine]
  split <;> simp

/-- Only the last element of what is taken ends a line. -/
theorem takeLine_dropLast (nl : α) (n : Nat) (l : List α) : nl ∉ (takeLine nl n l).1.dropLast := by
  induction n generalizing l with
  | zero => simp [takeLine]
  | succ n ih =>
      cases l with
      | nil => simp [takeLine]
      | cons a l =>
          rw [takeLine]
          split
          · simp
          · rename_i ha
            cases hline : (takeLine nl n l).1 with
            | nil => simp
            | cons b line =>
                have := ih l
                rw [hline] at this
                simp only [List.dropLast_cons_cons, List.mem_cons, not_or]
                exact ⟨Ne.symm ha, this⟩

/-- A line that fits is taken whole. -/
theorem takeLine_line {x l : List α} (hx : nl ∉ x) (hn : x.length < n) :
    takeLine nl n (x ++ nl :: l) = (x ++ [nl], l) := by
  induction x generalizing n with
  | nil =>
      obtain ⟨n, rfl⟩ := Nat.exists_eq_succ_of_ne_zero hn.ne'
      simp [takeLine]
  | cons a x ih =>
      obtain ⟨hne, hx⟩ := not_or.mp (mt List.mem_cons.mpr hx)
      obtain ⟨n, rfl⟩ := Nat.exists_eq_succ_of_ne_zero (Nat.ne_zero_of_lt hn)
      rw [List.cons_append, takeLine, if_neg (Ne.symm hne),
        ih hx (by simpa using hn)]
      rfl

/-- And the end of the input, if it fits. -/
theorem takeLine_all {l : List α} (hl : nl ∉ l) (hn : l.length ≤ n) :
    takeLine nl n l = (l, []) := by
  induction l generalizing n with
  | nil =>
      cases n with
      | zero => rfl
      | succ n => rfl
  | cons a l ih =>
      obtain ⟨hne, hl⟩ := not_or.mp (mt List.mem_cons.mpr hl)
      obtain ⟨n, rfl⟩ := Nat.exists_eq_succ_of_ne_zero (Nat.ne_zero_of_lt hn)
      rw [takeLine, if_neg (Ne.symm hne), ih hl (by simpa using hn)]

/-- What was taken ends a line, or it fills the buffer, or it is the end of the
input. -/
theorem takeLine_cases (nl : α) (n : Nat) (l : List α) :
    (takeLine nl n l).1.getLast? = some nl ∨
      nl ∉ (takeLine nl n l).1 ∧
        ((takeLine nl n l).1.length = n ∨ (takeLine nl n l).2 = []) := by
  induction n generalizing l with
  | zero => exact .inr ⟨by simp [takeLine], .inl rfl⟩
  | succ n ih =>
      cases l with
      | nil => exact .inr ⟨by simp [takeLine], .inr rfl⟩
      | cons a l =>
          rw [takeLine]
          by_cases ha : a = nl
          · rw [if_pos ha, ha]
            exact .inl rfl
          · rw [if_neg ha]
            obtain hlast | ⟨hnot, hend⟩ := ih l
            · exact .inl (by simp [List.getLast?_cons, hlast])
            · refine .inr ⟨by simp [hnot, Ne.symm ha], hend.imp_left fun h => ?_⟩
              rw [List.length_cons, h]

/-! ## Lines of the input -/

/-- The elements of `l` after its last line. -/
def unfinished (nl : α) (l : List α) : List α := l.rtakeWhile fun a => decide (a ≠ nl)

/-- `t` stands in `l` where a reader with room for `n` elements begins a
line. -/
def AsLine (nl : α) (n : Nat) (t l : List α) : Prop :=
  ∃ pre post, l = pre ++ t ++ post ∧ n ∣ (unfinished nl pre).length

theorem unfinished_eq_self {l : List α} (h : nl ∉ l) : unfinished nl l = l :=
  List.rtakeWhile_eq_self_iff.mpr fun _ ha => decide_eq_true fun he => h (he ▸ ha)

theorem unfinished_append (l m : List α) :
    unfinished nl (l ++ m) = if nl ∈ m then unfinished nl m else unfinished nl l ++ m := by
  induction m using List.reverseRecOn with
  | nil => simp
  | append_singleton m a ih =>
      rw [← List.append_assoc]
      by_cases ha : a = nl
      · simp [unfinished, ha]
      · have hconcat : ∀ k : List α, unfinished nl (k ++ [a]) = unfinished nl k ++ [a] := by
          intro k
          simp [unfinished, ha]
        rw [hconcat, hconcat, ih]
        by_cases hm : nl ∈ m <;> simp [hm, Ne.symm ha]

/-- A line that ended leaves nothing unfinished. -/
theorem unfinished_of_getLast? {l : List α} (h : l.getLast? = some nl) : unfinished nl l = [] := by
  obtain ⟨m, rfl⟩ := List.getLast?_eq_some_iff.mp h
  simp [unfinished]

/-- Places after a line are counted from its end. -/
theorem dvd_unfinished_append {line m : List α}
    (h : line.getLast? = some nl ∨ nl ∉ line ∧ line.length = n) :
    n ∣ (unfinished nl (line ++ m)).length ↔ n ∣ (unfinished nl m).length := by
  rw [unfinished_append]
  by_cases hm : nl ∈ m
  · rw [if_pos hm]
  · have hline : n ∣ (unfinished nl line).length := by
      obtain h | ⟨hnot, hlen⟩ := h
      · simp [unfinished_of_getLast? h]
      · rw [unfinished_eq_self hnot, hlen]
    rw [if_neg hm, unfinished_eq_self hm, List.length_append]
    exact Nat.dvd_add_right hline

theorem not_asLine_nil {t : List α} (ht : t ≠ []) : ¬AsLine nl n t [] := by
  rintro ⟨pre, post, h, -⟩
  simp_all

/-- **The lines a reader meets**: the one it takes first, and those of the
rest. -/
theorem asLine_iff {x l : List α} (hx : nl ∉ x) (hn : x.length < n) :
    AsLine nl n (x ++ [nl]) l ↔
      (takeLine nl n l).1 = x ++ [nl] ∨ AsLine nl n (x ++ [nl]) (takeLine nl n l).2 := by
  obtain ⟨line, hline⟩ : ∃ line, (takeLine nl n l).1 = line := ⟨_, rfl⟩
  obtain ⟨rest, hrest⟩ : ∃ rest, (takeLine nl n l).2 = rest := ⟨_, rfl⟩
  have happend : line ++ rest = l := by rw [← hline, ← hrest, takeLine_append]
  have hlen : line.length ≤ n := hline ▸ takeLine_length nl n l
  have hlast : nl ∉ line.dropLast := hline ▸ takeLine_dropLast nl n l
  have hcases := takeLine_cases nl n l
  rw [hline, hrest] at hcases ⊢
  constructor
  · rintro ⟨pre, post, hl, hdvd⟩
    by_cases hle : line.length ≤ pre.length
    · -- the line is over before the place
      right
      obtain ⟨pre', rfl⟩ : line <+: pre := List.prefix_of_prefix_length_le
        ⟨rest, happend⟩ ⟨x ++ [nl] ++ post, by rw [hl]; simp⟩ hle
      have hrest' : rest = pre' ++ (x ++ [nl]) ++ post := by
        rw [← List.append_cancel_left_eq line, happend, hl]
        simp
      have hend : line.getLast? = some nl ∨ nl ∉ line ∧ line.length = n :=
        hcases.imp_right (And.imp_right fun h => h.resolve_right (by simp [hrest']))
      exact ⟨pre', post, hrest', (dvd_unfinished_append hend).mp hdvd⟩
    · -- nothing before the place ends a line, so it is at the front
      left
      have hpre : pre <+: line.dropLast := List.prefix_of_prefix_length_le
        ⟨x ++ [nl] ++ post, by rw [hl]; simp⟩ ((List.dropLast_prefix line).trans ⟨rest, happend⟩)
        (by rw [List.length_dropLast]; omega)
      have hnot : nl ∉ pre := fun h => hlast (hpre.subset h)
      rw [unfinished_eq_self hnot] at hdvd
      have hzero : pre = [] := by
        by_contra hne
        have := Nat.le_of_dvd (List.length_pos_iff.mpr hne) hdvd
        omega
      rw [hzero, List.nil_append, List.append_assoc, List.singleton_append] at hl
      rw [← hline, hl, takeLine_line hx hn]
  · rintro (rfl | ⟨pre, post, hl, hdvd⟩)
    · exact ⟨[], rest, by rw [List.nil_append, happend], by simp [unfinished]⟩
    · have hend : line.getLast? = some nl ∨ nl ∉ line ∧ line.length = n :=
        hcases.imp_right (And.imp_right fun h => h.resolve_right (by simp [hl]))
      refine ⟨line ++ pre, post, by rw [← happend, hl]; simp, (dvd_unfinished_append hend).mpr hdvd⟩

end Lib
