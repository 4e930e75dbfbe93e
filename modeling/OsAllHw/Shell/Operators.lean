import OsAllHw.Lib.Words
import OsAllHw.Shell.Text

/-!
# Where a line is cut at its operator

`_isPipeCommand` and `_isRedirectionCommand` look for the operator as a
substring; `executePipeCommand` and `prepareRedirectionCommand` cut the line
at the first character that is one of the operator's. The two agree where no
character of the operator stands before the operator.
-/

namespace OsAllHw.Shell

open Lib

/-- The line is cut at an operator, around it and for the first time. -/
def CutAt (type cmdLine : Text) : Prop :=
  before type cmdLine ++ type ++ after type cmdLine = cmdLine ∧ ¬type <:+: before type cmdLine

/-- The operator a line is cut at: by `executePipeCommand`, or if there is no
pipe by `prepareRedirectionCommand`. -/
def Operator (type cmdLine : Text) : Prop :=
  isPipeCommand cmdLine = some type ∨
    isPipeCommand cmdLine = none ∧ isRedirectionCommand cmdLine = some type

theorem not_mem_before {type cmdLine : Text} {c : Char} (hc : c ∈ before type cmdLine) :
    c ∉ type := by
  simpa using List.mem_takeWhile_imp hc

theorem before_append_drop (type cmdLine : Text) :
    before type cmdLine ++ cmdLine.drop (before type cmdLine).length = cmdLine :=
  List.prefix_iff_eq_append.mp (List.takeWhile_prefix _)

/-- Whatever the operator, it does not occur before the cut. -/
theorem not_infix_before {type cmdLine : Text} (hne : type ≠ []) :
    ¬type <:+: before type cmdLine := by
  obtain ⟨c, type, rfl⟩ := List.exists_cons_of_ne_nil hne
  intro h
  exact not_mem_before (h.subset List.mem_cons_self) List.mem_cons_self

/-- Nothing is lost if the operator stands at the cut. -/
theorem cutAt_iff_begins {type cmdLine : Text} (hne : type ≠ []) :
    CutAt type cmdLine ↔ type <+: cmdLine.drop (before type cmdLine).length := by
  have hsplit := before_append_drop type cmdLine
  constructor
  · rintro ⟨h, -⟩
    refine ⟨after type cmdLine, ?_⟩
    rw [← List.append_cancel_left_eq (before type cmdLine), hsplit, ← List.append_assoc, h]
  · rintro ⟨t, ht⟩
    refine ⟨?_, not_infix_before hne⟩
    have hafter : after type cmdLine = t := by
      rw [after, ← List.drop_drop, ← ht, List.drop_left]
    rw [hafter, List.append_assoc, ht, hsplit]

/-- The characters before the first of `type`'s are those of `l`, if the next
one is of `type`. -/
theorem before_append {type l m : Text} {c : Char} (hl : ∀ d ∈ l, d ∉ type) (hc : c ∈ type) :
    before type (l ++ c :: m) = l := by
  rw [before, List.takeWhile_append_of_pos fun d hd => by simpa using hl d hd]
  simp [hc]

/-- A line is cut right if none of the operator's characters stands before
the operator. -/
theorem cutAt_iff_find {type cmdLine : Text} {p : Nat} (hne : type ≠ [])
    (hp : find type cmdLine = some p) :
    CutAt type cmdLine ↔ ∀ c ∈ cmdLine.take p, c ∉ type := by
  obtain ⟨⟨m, hm⟩, hfirst⟩ := find_eq_some hp
  have hline : cmdLine = cmdLine.take p ++ (type ++ m) := by
    rw [hm, List.take_append_drop]
  rw [cutAt_iff_begins hne]
  constructor
  · intro hpre c hc
    have hle : p ≤ (before type cmdLine).length := by
      by_contra hlt
      exact hfirst _ (by omega) hpre
    have hsub : cmdLine.take p <+: before type cmdLine :=
      List.prefix_of_prefix_length_le (List.take_prefix _ _) (List.takeWhile_prefix _)
        (by simp; omega)
    exact not_mem_before (hsub.subset hc)
  · intro hclear
    have hp' : p ≤ cmdLine.length := by
      by_contra hlt
      rw [List.drop_of_length_le (by omega)] at hm
      exact hne (List.append_eq_nil_iff.mp hm).1
    obtain ⟨c, type', rfl⟩ := List.exists_cons_of_ne_nil hne
    have hbefore : before (c :: type') cmdLine = cmdLine.take p := by
      conv_lhs => rw [hline]
      exact before_append hclear (by simp)
    rw [hbefore, List.length_take_of_le hp']
    exact ⟨m, hm⟩

/-- The operator of a line occurs in it. -/
theorem Operator.occurs {type cmdLine : Text} (h : Operator type cmdLine) :
    type ≠ [] ∧ type <:+: cmdLine := by
  have hpipe : isPipeCommand cmdLine = some type → type ≠ [] ∧ type <:+: cmdLine := by
    intro h
    unfold isPipeCommand at h
    split at h
    · cases h
      exact ⟨by decide, ‹_›⟩
    · split at h
      · cases h
        exact ⟨by decide, (List.singleton_infix_iff _ _).mpr ‹_›⟩
      · cases h
  obtain h | ⟨-, h⟩ := h
  · exact hpipe h
  · unfold isRedirectionCommand at h
    split at h
    · cases h
      exact ⟨by decide, ‹_›⟩
    · split at h
      · cases h
        exact ⟨by decide, (List.singleton_infix_iff _ _).mpr ‹_›⟩
      · cases h

/-- **A line is cut at its operator**, `|`, `|&`, `>` or `>>`, unless one of
the operator's characters stands before it. -/
theorem cut_at_operator (type cmdLine : Text) (h : Operator type cmdLine) :
    CutAt type cmdLine ↔
      ∃ p, find type cmdLine = some p ∧ ∀ c ∈ cmdLine.take p, c ∉ type := by
  obtain ⟨hne, l, m, hocc⟩ := h.occurs
  obtain ⟨p, hp⟩ := find_isSome (x := type) (l := cmdLine) (p := l.length)
    ⟨m, by rw [← hocc, List.append_assoc, List.drop_left]⟩
  rw [cutAt_iff_find hne hp, hp]
  simp

theorem cut_at_operator_pipe :
    CutAt "|&".toList "ls |& wc".toList ∧ CutAt ">>".toList "ls >> out".toList :=
  ⟨(cut_at_operator _ _ (.inl (by decide))).mpr ⟨3, by decide, by simp⟩,
    (cut_at_operator _ _ (.inr (by decide))).mpr ⟨3, by decide, by simp⟩⟩

/-- An `&` before `|&`: the command after the pipe begins with its `&`. -/
theorem cut_before_operator :
    ¬∀ type cmdLine, Operator type cmdLine → CutAt type cmdLine := fun h =>
  absurd (h "|&".toList "a & b |& c".toList (.inl (by decide))).1 (by decide)

end OsAllHw.Shell
