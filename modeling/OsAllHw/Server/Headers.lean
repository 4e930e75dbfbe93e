import OsAllHw.Server.Request

/-!
# `requestReadhdrs`

The loop reads lines until one is empty. `rio_readlineb` leaves the buffer
alone at the end of the stream, so a client that closes its side without an
empty line keeps the loop comparing its last line for ever.
-/

namespace OsAllHw.Server

open Lib

/-- An empty line. -/
def crlf : Text := ['\r', '\n']

/-- `while (strcmp(buf, "\r\n"))` for at most that many rounds: what is left
of the stream, if the loop ends. -/
def readhdrsLoop : Nat → Text → Text → Option Text
  | 0, _, _ => none
  | rounds + 1, stream, buf =>
      if cString buf = crlf then some stream
      else readhdrsLoop rounds (rioReadlineb stream buf).2 (rioReadlineb stream buf).1

/-- `requestReadhdrs`; `buf` is what its array holds at first. -/
def requestReadhdrs (rounds : Nat) (stream buf : Text) : Option Text :=
  readhdrsLoop rounds (rioReadlineb stream buf).2 (rioReadlineb stream buf).1

/-- The loop ends, from some state of the stream and the array. -/
def LoopEnds (stream buf : Text) : Prop := ∃ rounds rest, readhdrsLoop rounds stream buf = some rest

/-- `requestReadhdrs` returns. -/
def Returns (stream buf : Text) : Prop :=
  ∃ rounds rest, requestReadhdrs rounds stream buf = some rest

/-- One turn of the loop. -/
theorem loopEnds_iff (stream buf : Text) :
    LoopEnds stream buf ↔
      cString buf = crlf ∨ LoopEnds (rioReadlineb stream buf).2 (rioReadlineb stream buf).1 := by
  constructor
  · rintro ⟨rounds, rest, h⟩
    cases rounds with
    | zero => cases h
    | succ rounds =>
        rw [readhdrsLoop] at h
        split at h
        · exact .inl ‹_›
        · exact .inr ⟨rounds, rest, h⟩
  · rintro (hbuf | ⟨rounds, rest, h⟩)
    · exact ⟨1, stream, if_pos hbuf⟩
    · by_cases hbuf : cString buf = crlf
      · exact ⟨1, stream, if_pos hbuf⟩
      · exact ⟨rounds + 1, rest, by rw [readhdrsLoop, if_neg hbuf, h]⟩

/-- At the end of the stream the array stays as it is, and so does the loop. -/
theorem loopEnds_eof (buf : Text) : LoopEnds [] buf ↔ cString buf = crlf := by
  have hnever : cString buf ≠ crlf → ∀ rounds, readhdrsLoop rounds [] buf = none := by
    intro hbuf rounds
    induction rounds with
    | zero => rfl
    | succ rounds ih => rw [readhdrsLoop, if_neg hbuf, rioReadlineb, if_pos rfl, ih]
  constructor
  · rintro ⟨rounds, rest, h⟩
    by_contra hbuf
    rw [hnever hbuf] at h
    cases h
  · exact fun hbuf => ⟨1, [], if_pos hbuf⟩

/-- A line that was read ends the loop if it is an empty line. -/
theorem cString_line (stream : Text) :
    cString (takeLine '\n' (maxline - 1) stream).1 = crlf ↔
      (takeLine '\n' (maxline - 1) stream).1 = crlf := by
  have hlast := takeLine_dropLast '\n' (maxline - 1) stream
  obtain ⟨line, hline⟩ : ∃ line, (takeLine '\n' (maxline - 1) stream).1 = line := ⟨_, rfl⟩
  rw [hline] at hlast ⊢
  constructor
  · intro h
    obtain ⟨rest, hrest⟩ := List.takeWhile_prefix (fun c => decide (c ≠ '\x00')) (l := line)
    change cString line ++ rest = line at hrest
    rw [h] at hrest
    cases rest with
    | nil => simpa using hrest.symm
    | cons c rest =>
        -- otherwise the line goes on after its end
        rw [← hrest] at hlast
        simp [crlf, List.dropLast] at hlast
  · rintro rfl
    decide

/-- **The loop** ends if it finds an empty line where it reads one. -/
theorem loopEnds_iff_asLine (stream buf : Text) :
    LoopEnds stream buf ↔ cString buf = crlf ∨ AsLine '\n' (maxline - 1) crlf stream := by
  induction hlen : stream.length using Nat.strong_induction_on generalizing stream buf with
  | _ n ih =>
      by_cases hnil : stream = []
      · rw [hnil, loopEnds_eof, or_iff_left (not_asLine_nil (by decide))]
      · have hread : rioReadlineb stream buf = takeLine '\n' (maxline - 1) stream := if_neg hnil
        have hne : (takeLine '\n' (maxline - 1) stream).1 ≠ [] := takeLine_ne_nil (by decide) hnil
        have happend := congrArg List.length (takeLine_append '\n' (maxline - 1) stream)
        rw [List.length_append] at happend
        have hpos := List.length_pos_iff.mpr hne
        rw [loopEnds_iff, hread, ih _ (by omega) _ _ rfl, cString_line]
        exact or_congr_right (asLine_iff (x := ['\r']) (by decide) (by decide)).symm

/-- **Header reading ends** on the streams with an empty line where the reader
begins one: after a line, or after a multiple of what the buffer holds. With
no bytes at all, the array itself would have to hold it. -/
theorem headers_end (stream buf : Text) :
    Returns stream buf ↔
      (∃ before after, stream = before ++ crlf ++ after ∧
        (maxline - 1) ∣ (unfinished '\n' before).length) ∨
      stream = [] ∧ cString buf = crlf := by
  change LoopEnds (rioReadlineb stream buf).2 (rioReadlineb stream buf).1 ↔
    AsLine '\n' (maxline - 1) crlf stream ∨ _
  by_cases hnil : stream = []
  · rw [hnil, or_iff_right (not_asLine_nil (by decide)), rioReadlineb, if_pos rfl, loopEnds_eof,
      and_iff_right rfl]
  · rw [rioReadlineb, if_neg hnil, loopEnds_iff_asLine, cString_line]
    exact (asLine_iff (x := ['\r']) (by decide) (by decide)).symm.trans
      (or_iff_left fun h => hnil h.1).symm

/-- A header line that the client does not finish. -/
theorem headers_never_end : ¬∀ stream buf, Returns stream buf := by
  intro h
  have hread : rioReadlineb "Host: os".toList [] = ("Host: os".toList, []) :=
    rioReadlineb_all (by decide) (by decide) (by decide)
  have hends : LoopEnds [] "Host: os".toList := by
    obtain ⟨rounds, rest, hrun⟩ := h "Host: os".toList []
    rw [requestReadhdrs, hread] at hrun
    exact ⟨rounds, rest, hrun⟩
  exact absurd ((loopEnds_eof _).mp hends) (by decide)

end OsAllHw.Server
