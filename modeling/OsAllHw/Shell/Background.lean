import OsAllHw.Shell.Arguments

/-!
# The background sign, position by position

`_isBackgroundComamnd` and `_removeBackgroundSign` as they index the string:
`find_last_not_of` answers `npos` on a line of blanks, and the second of them
keeps the answer in an `unsigned int`. Each function here returns, with its
result, the positions it reads or writes.

On a line shorter than 2^32 that is not blank they are the functions of
`Text.lean`.
-/

namespace OsAllHw.Shell.Background

open Lib

/-- `std::string::npos`. -/
def npos : Nat := 2 ^ 64 - 1

/-- `find_last_not_of(WHITESPACE, pos)`. -/
def findLastNotOf (s : Text) (pos : Nat) : Nat :=
  match (rtrim (s.take (pos + 1))).length with
  | 0 => npos
  | i + 1 => i

/-- The character at position `i`: the terminator after the last one, and
whatever the memory holds after that. -/
def charAt (outside : Nat → Char) (s : Text) (i : Nat) : Char :=
  if i < s.length then s.getD i ' ' else if i = s.length then '\x00' else outside i

/-- `_isBackgroundComamnd`. -/
def isBackgroundCommand (outside : Nat → Char) (cmdLine : Text) : Bool × List Nat :=
  let i := findLastNotOf cmdLine npos
  (charAt outside cmdLine i = '&', [i])

/-- `_removeBackgroundSign`: what is left of the string. -/
def removeBackgroundSign (outside : Nat → Char) (cmdLine : Text) : Text × List Nat :=
  let idx := findLastNotOf cmdLine npos % 2 ^ 32
  if idx = npos then (cmdLine, []) -- an `unsigned int` never is
  else if charAt outside cmdLine idx ≠ '&' then (cmdLine, [idx])
  else
    -- the original string, where the sign still stands
    let cut := (findLastNotOf cmdLine idx + 1) % 2 ^ 64
    ((cmdLine.set idx ' ').take cut, [idx, idx, cut])

/-- The line ends in a background sign, apart from blanks. -/
def Signed (cmdLine : Text) : Prop := (rtrim cmdLine).getLast? = some '&'

instance (cmdLine : Text) : Decidable (Signed cmdLine) := inferInstanceAs (Decidable (_ = _))

/-- Both functions stay inside the string and do what their comments say. -/
structure Exact (outside : Nat → Char) (cmdLine : Text) : Prop where
  reads : ∀ i ∈ (isBackgroundCommand outside cmdLine).2, i ≤ cmdLine.length
  accesses : ∀ i ∈ (removeBackgroundSign outside cmdLine).2, i ≤ cmdLine.length
  sign : (isBackgroundCommand outside cmdLine).1 = true ↔ Signed cmdLine
  removed : (removeBackgroundSign outside cmdLine).1 =
    if Signed cmdLine then rtrim (rtrim cmdLine).dropLast else cmdLine

/-! ## The last character that is not a blank -/

/-- A line is blank, or blank after a last character that is not. -/
theorem rtrim_cases (l : Text) :
    rtrim l = [] ∨
      ∃ r c s, l = r ++ c :: s ∧ isSpace c = false ∧ rtrim l = r ++ [c] := by
  by_cases hnil : rtrim l = []
  · exact .inl hnil
  · obtain ⟨s, hl, -⟩ := rtrim_append_blank l
    obtain ⟨r, c, hrc⟩ := (List.eq_nil_or_concat' _).resolve_left hnil
    refine .inr ⟨r, c, s, ?_, ?_, hrc⟩
    · rw [hrc] at hl
      rw [hl, List.append_assoc, List.singleton_append]
    · have := List.rdropWhile_last_not isSpace l hnil
      change ¬isSpace ((rtrim l).getLast hnil) = true at this
      simp only [hrc, List.getLast_append_singleton] at this
      simpa using this

/-- A trimmed text does not end in a blank. -/
theorem rtrim_ne_concat {l m : Text} {c : Char} (hc : isSpace c = true) : rtrim l ≠ m ++ [c] := by
  intro h
  obtain hnil | ⟨r, d, s, -, hd, hrd⟩ := rtrim_cases l
  · simp [hnil] at h
  · rw [hrd] at h
    obtain rfl : d = c := (List.append_inj' h rfl).2 |> List.singleton_inj.mp
    rw [hc] at hd
    cases hd

theorem rtrim_concat {l : Text} {c : Char} (hc : isSpace c = false) :
    rtrim (l ++ [c]) = l ++ [c] := by
  simp [rtrim, hc]

/-- The search ends at once at a character that is not a blank. -/
theorem findLastNotOf_self {s : Text} {i : Nat} (hi : i < s.length) (hc : isSpace s[i] = false) :
    findLastNotOf s i = i := by
  have htake : s.take (i + 1) = s.take i ++ [s[i]] := by simp
  rw [findLastNotOf, htake, rtrim_concat hc, List.length_append, List.length_take_of_le hi.le]
  rfl

theorem findLastNotOf_blank {s : Text} (hs : s.length < npos) (h : rtrim s = []) :
    findLastNotOf s npos = npos := by
  rw [findLastNotOf, List.take_of_length_le (by omega), h]
  rfl

theorem findLastNotOf_last {s r : Text} {c : Char} (hs : s.length < npos) (h : rtrim s = r ++ [c]) :
    findLastNotOf s npos = r.length := by
  rw [findLastNotOf, List.take_of_length_le (by omega), h, List.length_append]
  rfl

/-! ## What the two functions do -/

section

variable {outside : Nat → Char} {cmdLine r s : Text} {c : Char} {i : Nat}

theorem charAt_of_lt (hi : i < cmdLine.length) : charAt outside cmdLine i = cmdLine[i] := by
  rw [charAt, if_pos hi, List.getD_eq_getElem _ _ hi]

/-- `_removeBackgroundSign` where the shortened index is not at an `&`. -/
theorem removeBackgroundSign_other (hi : i < cmdLine.length)
    (hidx : findLastNotOf cmdLine npos % 2 ^ 32 = i) (hc : cmdLine[i] ≠ '&') :
    removeBackgroundSign outside cmdLine = (cmdLine, [i]) := by
  have hnpos : i ≠ npos := by
    have := Nat.mod_lt (findLastNotOf cmdLine npos) (show 0 < 2 ^ 32 by decide)
    unfold npos at hidx ⊢
    omega
  simp only [removeBackgroundSign, hidx, if_neg hnpos, charAt_of_lt hi, ne_eq, hc,
    not_false_eq_true, if_true]

/-- And where it is: the `&` becomes a space, and the string ends there. -/
theorem removeBackgroundSign_sign (hi : i < cmdLine.length)
    (hidx : findLastNotOf cmdLine npos % 2 ^ 32 = i) (hc : cmdLine[i] = '&') :
    removeBackgroundSign outside cmdLine = (cmdLine.take i ++ [' '], [i, i, i + 1]) := by
  have hlt := Nat.mod_lt (findLastNotOf cmdLine npos) (show 0 < 2 ^ 32 by decide)
  have hnpos : i ≠ npos := by
    unfold npos at hidx ⊢
    omega
  have hcut : (findLastNotOf cmdLine i + 1) % 2 ^ 64 = i + 1 := by
    rw [findLastNotOf_self hi (by rw [hc]; decide)]
    omega
  have htake : (cmdLine.set i ' ').take (i + 1) = cmdLine.take i ++ [' '] := by
    rw [List.take_add_one, List.take_set, List.set_eq_of_length_le (by simp),
      List.getElem?_set_self hi]
    rfl
  simp only [removeBackgroundSign, hidx, if_neg hnpos, charAt_of_lt hi, ne_eq, hc,
    not_true_eq_false, if_false, hcut, htake]

/-- The positions of a line that is not blank: of its last character, and of
the shortened index. -/
theorem index_lt (hline : cmdLine = r ++ c :: s) : r.length % 2 ^ 32 < cmdLine.length := by
  have := Nat.mod_le r.length (2 ^ 32)
  rw [hline, List.length_append, List.length_cons]
  omega

/-- **Background signs** are handled right on the lines that are not blank,
do not end in `&`, and have none where the index in an `unsigned int` points. -/
theorem background_sign_exact (outside : Nat → Char) (cmdLine : Text)
    (hfits : cmdLine.length < npos) :
    Exact outside cmdLine ↔
      rtrim cmdLine ≠ [] ∧ ¬Signed cmdLine ∧
        cmdLine[((rtrim cmdLine).length - 1) % 2 ^ 32]? ≠ some '&' := by
  obtain hnil | ⟨r, c, s, hline, hspace, hrtrim⟩ := rtrim_cases cmdLine
  · refine iff_of_false (fun h => ?_) fun h => h.1 hnil
    have := h.reads npos (by simp [isBackgroundCommand, findLastNotOf_blank hfits hnil])
    omega
  have hlast := findLastNotOf_last hfits hrtrim
  obtain ⟨i, hidx⟩ : ∃ i, r.length % 2 ^ 32 = i := ⟨_, rfl⟩
  have hi : i < cmdLine.length := hidx ▸ index_lt hline
  have hle : i ≤ r.length := hidx ▸ Nat.mod_le ..
  have hrlt : r.length < cmdLine.length := by simp [hline]
  have hsigned : Signed cmdLine ↔ c = '&' := by simp [Signed, hrtrim]
  have hlen : (rtrim cmdLine).length - 1 = r.length := by simp [hrtrim]
  rw [hlen, hidx, List.getElem?_eq_getElem hi, hsigned]
  rw [← hlast] at hidx
  constructor
  · intro h
    have hremoved := h.removed
    by_cases hamp : cmdLine[i] = '&'
    · exfalso
      rw [removeBackgroundSign_sign hi hidx hamp] at hremoved
      split at hremoved
      · exact rtrim_ne_concat (by decide) hremoved.symm
      · have := congrArg (·[i]?) hremoved
        simp [hi, hamp, Nat.min_eq_left hi.le] at this
    · rw [removeBackgroundSign_other hi hidx hamp] at hremoved
      refine ⟨by simp [hrtrim], fun hc => ?_, by simpa using hamp⟩
      rw [if_pos (hsigned.mpr hc), hrtrim, List.dropLast_concat] at hremoved
      obtain ⟨t, ht, -⟩ := rtrim_append_blank r
      have hlong : r.length = (rtrim r).length + t.length := by
        rw [← List.length_append, ← ht]
      have hshort : cmdLine.length = (rtrim r).length := congrArg List.length hremoved
      omega
  · rintro ⟨-, hc, hamp⟩
    have hother : removeBackgroundSign outside cmdLine = (cmdLine, [i]) :=
      removeBackgroundSign_other hi hidx (by simpa using hamp)
    refine ⟨?_, ?_, ?_, ?_⟩
    · simp [isBackgroundCommand, hlast, hrlt.le]
    · simp [hother, hi.le]
    · have hat : cmdLine[r.length] = c := by simp [hline]
      simp [isBackgroundCommand, hlast, charAt_of_lt hrlt, hat, hsigned]
    · rw [hother, if_neg fun h => hc (hsigned.mp h)]

theorem background_sign_exact_ls : Exact (fun _ => '&') "ls -l ".toList :=
  (background_sign_exact _ _ (by decide)).mpr (by decide)

/-- `ls &`: the space in place of the sign stays. -/
theorem background_sign_leaves_space :
    ¬∀ outside cmdLine, cmdLine.length < npos → Exact outside cmdLine := fun h =>
  absurd (h (fun _ => 'x') "ls &".toList (by decide)).removed (by decide)

/-- On ordinary lines these are the functions of `Text.lean`. -/
theorem agrees (stray : Bool) (hne : rtrim cmdLine ≠ []) (hlen : cmdLine.length ≤ 2 ^ 32) :
    (isBackgroundCommand outside cmdLine).1 = Shell.isBackgroundCommand stray cmdLine ∧
      (removeBackgroundSign outside cmdLine).1 = Shell.removeBackgroundSign cmdLine := by
  obtain ⟨r, c, s, hline, -, hrtrim⟩ := (rtrim_cases cmdLine).resolve_left hne
  have hfits : cmdLine.length < npos := by
    unfold npos
    omega
  have hlast := findLastNotOf_last hfits hrtrim
  have hi : r.length < cmdLine.length := by simp [hline]
  have hidx : findLastNotOf cmdLine npos % 2 ^ 32 = r.length := by
    rw [hlast]
    omega
  have hat : cmdLine[r.length] = c := by simp [hline]
  have htake : cmdLine.take r.length = r := by simp [hline]
  constructor
  · simp [isBackgroundCommand, Shell.isBackgroundCommand, hlast, charAt_of_lt hi, hat, hrtrim]
  · by_cases hc : c = '&'
    · rw [removeBackgroundSign_sign hi hidx (hat.trans hc), htake]
      simp [Shell.removeBackgroundSign, hrtrim, hc]
    · rw [removeBackgroundSign_other hi hidx fun h => hc (hat.symm.trans h)]
      simp [Shell.removeBackgroundSign, hrtrim, hc]

end

end OsAllHw.Shell.Background
