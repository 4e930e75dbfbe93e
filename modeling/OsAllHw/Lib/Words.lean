import Mathlib

/-!
# Words and occurrences

The words of a list are its longest pieces without a separator: what `>>`
reads from a stream one after the other, `%s` of `scanf`, and the components
of a path. `find` is the search for a piece of text.
-/

namespace Lib

variable {α : Type} {sep : α → Bool}

/-! ## Words -/

/-- The non-empty pieces of `l` between separators. -/
def words (sep : α → Bool) (l : List α) : List (List α) :=
  (l.splitOnP sep).filter fun w => !w.isEmpty

/-- What is left of `l` from its word number `k` on. -/
def fromWord (sep : α → Bool) : Nat → List α → List α
  | 0, l => l.dropWhile sep
  | k + 1, l => fromWord sep k ((l.dropWhile sep).dropWhile fun a => !sep a)

/-- No element of `l` separates. -/
def Solid (sep : α → Bool) (l : List α) : Prop := ∀ a ∈ l, sep a = false

/-- Every element of `l` separates. -/
def Blank (sep : α → Bool) (l : List α) : Prop := ∀ a ∈ l, sep a = true

/-- `l` is empty or begins with a separator. -/
def Cut (sep : α → Bool) (l : List α) : Prop := ∀ a ∈ l.head?, sep a = true

@[simp] theorem words_nil : words sep [] = [] := by simp [words]

theorem words_sep {a : α} {l : List α} (ha : sep a = true) :
    words sep (a :: l) = words sep l := by
  simp [words, List.splitOnP_cons_eq_if_modifyHead, ha]

theorem words_append_sep {l m : List α} {a : α} (ha : sep a = true) :
    words sep (l ++ a :: m) = words sep l ++ words sep m := by
  rw [words, List.splitOnP_append_cons l m ha, List.filter_append]
  rfl

theorem words_solid {w : List α} (hw : Solid sep w) (hne : w ≠ []) : words sep w = [w] := by
  simp [words, List.splitOnP_eq_singleton hw, hne]

/-- **The first word** of a list that begins with it. -/
theorem words_append {w l : List α} (hw : Solid sep w) (hne : w ≠ []) (hl : Cut sep l) :
    words sep (w ++ l) = w :: words sep l := by
  cases l with
  | nil => rw [List.append_nil, words_solid hw hne, words_nil]
  | cons a l =>
      have ha : sep a = true := hl a rfl
      rw [words_append_sep ha, words_solid hw hne, words_sep ha, List.singleton_append]

theorem words_blank_append {s l : List α} (hs : Blank sep s) :
    words sep (s ++ l) = words sep l := by
  induction s with
  | nil => rfl
  | cons a s ih =>
      rw [List.cons_append, words_sep (hs a (by simp)), ih fun b hb => hs b (by simp [hb])]

theorem words_blank {s : List α} (hs : Blank sep s) : words sep s = [] := by
  simpa using words_blank_append (l := []) hs

theorem words_append_blank {l s : List α} (hs : Blank sep s) :
    words sep (l ++ s) = words sep l := by
  cases s with
  | nil => rw [List.append_nil]
  | cons a s =>
      have hrest : Blank sep s := fun b hb => hs b (List.mem_cons_of_mem a hb)
      rw [words_append_sep (hs a List.mem_cons_self), words_blank hrest, List.append_nil]

/-- Every list is blanks, a word, and the rest, or blanks only. -/
theorem blank_or_word (sep : α → Bool) (l : List α) :
    Blank sep l ∨ ∃ s w r, l = s ++ w ++ r ∧ Blank sep s ∧ w ≠ [] ∧ Solid sep w ∧ Cut sep r := by
  induction l with
  | nil => exact .inl (by simp [Blank])
  | cons a l ih =>
      by_cases ha : sep a = true
      · obtain h | ⟨s, w, r, rfl, hs, hw⟩ := ih
        · exact .inl fun b hb => by
            obtain rfl | hb := List.mem_cons.mp hb
            · exact ha
            · exact h b hb
        · refine .inr ⟨a :: s, w, r, by simp, fun b hb => ?_, hw⟩
          obtain rfl | hb := List.mem_cons.mp hb
          · exact ha
          · exact hs b hb
      · refine .inr ⟨[], (a :: l).takeWhile (fun b => !sep b),
          (a :: l).dropWhile fun b => !sep b, by simp, by simp [Blank], by simp [ha],
          fun b hb => ?_, fun b hb => ?_⟩
        · simpa using List.mem_takeWhile_imp hb
        · have := List.head?_dropWhile_not (fun b => !sep b) (a :: l)
          rw [Option.mem_def.mp hb] at this
          simpa using this

/-- **The shape of a list** with at least one word. -/
theorem words_eq_cons {l w : List α} {ws : List (List α)} (h : words sep l = w :: ws) :
    ∃ s r, l = s ++ w ++ r ∧ Blank sep s ∧ w ≠ [] ∧ Solid sep w ∧ Cut sep r ∧
      words sep r = ws := by
  obtain hb | ⟨s, v, r, rfl, hs, hne, hv, hr⟩ := blank_or_word sep l
  · rw [words_blank hb] at h
    cases h
  · rw [List.append_assoc, words_blank_append hs, words_append hv hne hr] at h
    cases h
    exact ⟨s, r, rfl, hs, hne, hv, hr, rfl⟩

/-- A word is a piece of the list, not empty and without a separator. -/
theorem of_mem_words {l w : List α} (h : w ∈ words sep l) :
    w ≠ [] ∧ Solid sep w ∧ w <:+: l := by
  induction hws : words sep l generalizing l with
  | nil =>
      rw [hws] at h
      cases h
  | cons v ws ih =>
      obtain ⟨s, r, rfl, -, hne, hv, -, hr⟩ := words_eq_cons hws
      rw [hws] at h
      obtain rfl | hmem := List.mem_cons.mp h
      · exact ⟨hne, hv, s, r, rfl⟩
      · obtain ⟨hne', hsolid, t, u, htu⟩ := ih (by rwa [hr]) hr
        refine ⟨hne', hsolid, s ++ v ++ t, u, ?_⟩
        rw [← htu]
        simp

theorem fromWord_zero {s w r : List α} (hs : Blank sep s) (hw : Solid sep w) (hne : w ≠ []) :
    fromWord sep 0 (s ++ w ++ r) = w ++ r := by
  obtain ⟨a, w, rfl⟩ := List.exists_cons_of_ne_nil hne
  rw [fromWord, List.append_assoc, List.dropWhile_append_of_pos hs]
  simp [hw a (by simp)]

theorem fromWord_succ {s w r : List α} (k : Nat) (hs : Blank sep s) (hw : Solid sep w)
    (hne : w ≠ []) (hr : Cut sep r) : fromWord sep (k + 1) (s ++ w ++ r) = fromWord sep k r := by
  have h0 : (s ++ w ++ r).dropWhile sep = w ++ r := fromWord_zero hs hw hne
  have h1 : (w ++ r).dropWhile (fun a => !sep a) = r := by
    rw [List.dropWhile_append_of_pos fun a ha => by simp [hw a ha]]
    cases r with
    | nil => rfl
    | cons a r => simp [hr a rfl]
  rw [fromWord, h0, h1]

/-! ## Occurrences -/

/-- `x` occurs in `l ++ m`, beginning in `l`. -/
def Begins (x l m : List α) : Prop := ∃ p < l.length, x <+: (l ++ m).drop p

theorem begins_append {x l₁ l₂ m : List α} :
    Begins x (l₁ ++ l₂) m ↔ Begins x l₁ (l₂ ++ m) ∨ Begins x l₂ m := by
  constructor
  · rintro ⟨p, hp, hx⟩
    by_cases hlt : p < l₁.length
    · exact .inl ⟨p, hlt, by rwa [List.append_assoc] at hx⟩
    · rw [List.length_append] at hp
      refine .inr ⟨p - l₁.length, by omega, ?_⟩
      rwa [List.append_assoc, List.drop_append, List.drop_of_length_le (by omega),
        List.nil_append] at hx
  · rintro (⟨p, hp, hx⟩ | ⟨p, hp, hx⟩)
    · exact ⟨p, by simp; omega, by rwa [List.append_assoc]⟩
    · refine ⟨l₁.length + p, by simpa using hp, ?_⟩
      rwa [List.append_assoc, List.drop_append, List.drop_of_length_le (by omega),
        List.nil_append, Nat.add_sub_cancel_left]

/-- A word does not begin in blanks. -/
theorem not_begins_blank {x s m : List α} (hx : Solid sep x) (hne : x ≠ []) (hs : Blank sep s) :
    ¬Begins x s m := by
  rintro ⟨p, hp, hpre⟩
  obtain ⟨a, x, rfl⟩ := List.exists_cons_of_ne_nil hne
  obtain ⟨t, ht⟩ := hpre
  rw [List.drop_append_of_le_length (by omega), List.drop_eq_getElem_cons hp] at ht
  have hhead : a = s[p] := (List.cons.inj ht).1
  have h1 := hx a (by simp)
  rw [hhead, hs _ (List.getElem_mem hp)] at h1
  cases h1

/-- **A word that begins in a word** lies inside it. -/
theorem begins_solid {x w m : List α} (hx : Solid sep x) (hne : x ≠ []) (hm : Cut sep m) :
    Begins x w m ↔ x <:+: w := by
  constructor
  · rintro ⟨p, hp, t, ht⟩
    rw [List.drop_append_of_le_length (by omega)] at ht
    obtain ⟨u, hu, -⟩ | ⟨u, hu, hmu⟩ := List.append_eq_append_iff.mp ht
    · exact ⟨w.take p, u, by rw [List.append_assoc, ← hu, List.take_append_drop]⟩
    · cases u with
      | nil =>
          rw [List.append_nil] at hu
          exact ⟨w.take p, [], by rw [hu, List.append_nil, List.take_append_drop]⟩
      | cons a u =>
          have h1 := hx a (by simp [hu])
          rw [hm a (by simp [hmu])] at h1
          cases h1
  · rintro ⟨u, v, rfl⟩
    refine ⟨u.length, ?_, ?_⟩
    · have := List.length_pos_iff.mpr hne
      simp
      omega
    · simp

variable [DecidableEq α]

/-- Where `x` occurs first. -/
def find (x : List α) : List α → Option Nat
  | [] => if x = [] then some 0 else none
  | a :: l => if x <+: a :: l then some 0 else (find x l).map (· + 1)

theorem find_eq_some {x l : List α} {p : Nat} (h : find x l = some p) :
    x <+: l.drop p ∧ ∀ q < p, ¬x <+: l.drop q := by
  induction l generalizing p with
  | nil =>
      rw [find] at h
      split at h
      · cases h
        simp_all
      · cases h
  | cons a l ih =>
      rw [find] at h
      split at h
      · cases h
        exact ⟨‹_›, fun q hq => absurd hq (Nat.not_lt_zero q)⟩
      · obtain ⟨p', hp', rfl⟩ := Option.map_eq_some_iff.mp h
        obtain ⟨hocc, hfirst⟩ := ih hp'
        refine ⟨hocc, fun q hq => ?_⟩
        cases q with
        | zero => assumption
        | succ q => exact hfirst q (by omega)

/-- Whatever occurs is found. -/
theorem find_isSome {x l : List α} {p : Nat} (h : x <+: l.drop p) : ∃ q, find x l = some q := by
  induction l generalizing p with
  | nil => exact ⟨0, by simp_all [find]⟩
  | cons a l ih =>
      rw [find]
      split
      · exact ⟨0, rfl⟩
      · rename_i hnot
        cases p with
        | zero => exact absurd h hnot
        | succ p =>
            obtain ⟨q, hq⟩ := ih h
            exact ⟨q + 1, by rw [hq]; rfl⟩

/-- `x` is found where it occurs, unless it begins earlier. -/
theorem find_append {x l m : List α} (hocc : x <+: m) (hfirst : ¬Begins x l m) :
    find x (l ++ m) = some l.length := by
  obtain ⟨p, hp⟩ := find_isSome (x := x) (l := l ++ m) (p := l.length) (by simpa using hocc)
  obtain ⟨hat, hmin⟩ := find_eq_some hp
  have hle : p ≤ l.length := by
    by_contra hlt
    exact hmin l.length (by omega) (by simpa using hocc)
  have hge : ¬p < l.length := fun hlt => hfirst ⟨p, hlt, hat⟩
  rw [hp]
  congr 1
  omega

end Lib
