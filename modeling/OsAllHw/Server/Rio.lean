import OsAllHw.Lib.Device
import OsAllHw.Server.Request

/-!
# `segel.c`: the Rio package

`rio_t` keeps what one `read` gave beyond what its caller wanted. The
functions are given here over a descriptor that delivers its stream in pieces
of any size and may interrupt or fail any call.
-/

namespace OsAllHw.Server.Segel

open Lib

/-- `RIO_BUFSIZE`. -/
def rioBufsize : Nat := 8192

theorem rioBufsize_pos : 0 < rioBufsize := by decide

/-- What a failed call returns. -/
theorem failed_nonpos : (-1 : Int) ≤ 0 := by decide

/-- What a call returns, and what it wrote to the caller's array. -/
structure Ret where
  val : Int
  usrbuf : Text
  deriving DecidableEq

/-! ## rio_t -/

/-- `rio_t`; `buf` is the whole array. -/
structure RioT where
  fd : Source Char
  cnt : Int
  buf : Text
  bufptr : Nat
  size : buf.length = rioBufsize
  inside : bufptr + cnt.toNat ≤ rioBufsize

namespace RioT

/-- The unread bytes of the buffer. -/
def pending (rp : RioT) : Text := (rp.buf.drop rp.bufptr).take rp.cnt.toNat

/-- All that is still to be read. -/
def unread (rp : RioT) : Text := rp.pending ++ rp.fd.stream

theorem inside_empty {bufptr : Nat} {cnt : Int} (h : bufptr + cnt.toNat ≤ rioBufsize) {c : Int}
    (hc : c ≤ 0) : bufptr + c.toNat ≤ rioBufsize := by
  omega

theorem size_refill {buf l : Text} (hbuf : buf.length = rioBufsize) (hl : l.length ≤ rioBufsize) :
    (l ++ buf.drop l.length).length = rioBufsize := by
  rw [List.length_append, List.length_drop, hbuf]
  omega

theorem inside_init : 0 + (0 : Int).toNat ≤ rioBufsize := by decide

theorem inside_refill {l : Text} (hl : l.length ≤ rioBufsize) :
    0 + (l.length : Int).toNat ≤ rioBufsize := by
  omega

theorem inside_advance {bufptr n : Nat} {cnt : Int} (h : bufptr + cnt.toNat ≤ rioBufsize) :
    bufptr + min n cnt.toNat + (cnt - (min n cnt.toNat : Nat)).toNat ≤ rioBufsize := by
  omega

/-- `read` gave nothing. -/
def emptied (rp : RioT) (fd : Source Char) (cnt : Int) (hcnt : cnt ≤ 0) : RioT :=
  { rp with fd := fd, cnt := cnt, inside := inside_empty rp.inside hcnt }

/-- `read` put `l` at the front of the array. -/
def refill (rp : RioT) (fd : Source Char) (l : Text) (hl : l.length ≤ rioBufsize) : RioT :=
  { fd := fd, cnt := l.length, buf := l ++ rp.buf.drop l.length, bufptr := 0,
    size := size_refill rp.size hl, inside := inside_refill hl }

/-- `memcpy`, for `min(n, rio_cnt)` bytes, and the pointer moves on. -/
def copyOut (rp : RioT) (n : Nat) : Text × RioT :=
  (rp.pending.take n,
    { rp with
      cnt := rp.cnt - (min n rp.cnt.toNat : Nat)
      bufptr := rp.bufptr + min n rp.cnt.toNat
      inside := inside_advance rp.inside })

theorem pending_length (rp : RioT) : rp.pending.length = rp.cnt.toNat := by
  have hinside := rp.inside
  rw [pending, List.length_take, List.length_drop, rp.size]
  omega

@[simp] theorem pending_emptied {rp : RioT} {fd : Source Char} {cnt : Int} (h : cnt ≤ 0) :
    (rp.emptied fd cnt h).pending = [] := by
  have hcnt : cnt.toNat = 0 := by omega
  simp [pending, emptied, hcnt]

@[simp] theorem pending_refill {rp : RioT} {fd : Source Char} {l : Text}
    (h : l.length ≤ rioBufsize) : (rp.refill fd l h).pending = l := by
  simp [pending, refill]

theorem copyOut_append (rp : RioT) (n : Nat) :
    (rp.copyOut n).1 ++ (rp.copyOut n).2.unread = rp.unread := by
  have hlen := rp.pending_length
  have hrest : (rp.copyOut n).2.pending = rp.pending.drop n := by
    have hcnt : (rp.cnt - (min n rp.cnt.toNat : Nat)).toNat =
        rp.cnt.toNat - min n rp.cnt.toNat := by
      omega
    simp only [pending, copyOut, hcnt, ← List.drop_drop]
    rw [← List.drop_take]
    by_cases hn : n ≤ rp.cnt.toNat
    · rw [Nat.min_eq_left hn]
    · have hle : rp.cnt.toNat ≤ n := by omega
      rw [Nat.min_eq_right hle, List.drop_eq_nil_of_le (List.length_take_le ..),
        List.drop_eq_nil_of_le ((List.length_take_le ..).trans hle)]
  change rp.pending.take n ++ ((rp.copyOut n).2.pending ++ rp.fd.stream) = _
  rw [hrest, ← List.append_assoc, List.take_append_drop]
  rfl

end RioT

/-! ## The buffered reads -/

/-- `rio_readinitb`; the array is not written. -/
def rioReadinitb (rp : RioT) (fd : Source Char) : RioT :=
  { rp with fd := fd, cnt := 0, bufptr := 0, inside := RioT.inside_init }

/-- `rio_read`. -/
def rioRead (rp : RioT) (n : Nat) : Except Errno Text × RioT :=
  if rp.cnt ≤ 0 then
    match h : rp.fd.read rioBufsize with
    | (.error .eintr, fd) => rioRead (rp.emptied fd (-1) failed_nonpos) n
    | (.error .other, fd) => (.error .other, rp.emptied fd (-1) failed_nonpos)
    | (.ok [], fd) => (.ok [], rp.emptied fd 0 le_rfl)
    | (.ok (c :: l), fd) =>
        let rp := rp.refill fd (c :: l) (Source.read_ok rioBufsize_pos h).2.1
        (.ok (rp.copyOut n).1, (rp.copyOut n).2)
  else (.ok (rp.copyOut n).1, (rp.copyOut n).2)
termination_by rp.fd.answers.length
decreasing_by
  exact (congrArg List.length (Source.read_error h).2).symm ▸ Nat.lt_succ_self _

section Read

variable {rp : RioT} {fd : Source Char} {n : Nat}

theorem rioRead_interrupted (hcnt : rp.cnt ≤ 0)
    (h : rp.fd.read rioBufsize = (.error .eintr, fd)) :
    rioRead rp n = rioRead (rp.emptied fd (-1) failed_nonpos) n := by
  rw [rioRead, if_pos hcnt]
  split <;> simp_all

theorem rioRead_failed (hcnt : rp.cnt ≤ 0) (h : rp.fd.read rioBufsize = (.error .other, fd)) :
    rioRead rp n = (.error .other, rp.emptied fd (-1) failed_nonpos) := by
  rw [rioRead, if_pos hcnt]
  split <;> simp_all

theorem rioRead_eof (hcnt : rp.cnt ≤ 0) (h : rp.fd.read rioBufsize = (.ok [], fd)) :
    rioRead rp n = (.ok [], rp.emptied fd 0 le_rfl) := by
  rw [rioRead, if_pos hcnt]
  split <;> simp_all

theorem rioRead_filled (hcnt : rp.cnt ≤ 0) {c : Char} {l : Text}
    (h : rp.fd.read rioBufsize = (.ok (c :: l), fd)) (hlen : (c :: l).length ≤ rioBufsize) :
    rioRead rp n = (.ok ((rp.refill fd (c :: l) hlen).copyOut n).1,
      ((rp.refill fd (c :: l) hlen).copyOut n).2) := by
  rw [rioRead, if_pos hcnt]
  split <;> simp_all

theorem rioRead_pending (hcnt : ¬rp.cnt ≤ 0) :
    rioRead rp n = (.ok (rp.copyOut n).1, (rp.copyOut n).2) := by
  rw [rioRead, if_neg hcnt]

/-- With an empty buffer all that is left is the descriptor's. -/
theorem RioT.unread_of_empty (hcnt : rp.cnt ≤ 0) : rp.unread = rp.fd.stream := by
  have hzero : rp.cnt.toNat = 0 := by omega
  rw [unread, pending, hzero, List.take_zero, List.nil_append]

/-- A buffer that is not empty gives something. -/
theorem RioT.copyOut_ne_nil (hn : 0 < n) (hcnt : ¬rp.cnt ≤ 0) : (rp.copyOut n).1 ≠ [] := by
  have hlen := rp.pending_length
  intro h
  have hzero := congrArg List.length h
  rw [copyOut, List.length_take, List.length_nil] at hzero
  omega

/-- **What `rio_read` does**: it never loses a byte, gives none only at the
end, and never reports an interruption. -/
theorem rioRead_spec (hn : 0 < n) (rp : RioT) :
    (rioRead rp n).2.fd.answers <:+ rp.fd.answers ∧
      ((∃ l, (rioRead rp n).1 = .ok l ∧ l ++ (rioRead rp n).2.unread = rp.unread ∧
          l.length ≤ n ∧ (l = [] → rp.unread = [])) ∨
        (rioRead rp n).1 = .error .other ∧ (rioRead rp n).2.unread = rp.unread ∧
          .fails .other :: (rioRead rp n).2.fd.answers <:+ rp.fd.answers) := by
  induction rp using rioRead.induct with
  | case1 rp hcnt fd h ih =>
      obtain ⟨hstream, hanswers⟩ := Source.read_error h
      have hsuffix : fd.answers <:+ rp.fd.answers := hanswers ▸ List.suffix_cons _ _
      have hunread : (rp.emptied fd (-1) failed_nonpos).unread = rp.unread := by
        rw [RioT.unread_of_empty hcnt, ← hstream, RioT.unread, RioT.pending_emptied,
          List.nil_append]
        rfl
      rw [rioRead_interrupted hcnt h]
      rw [hunread] at ih
      obtain ⟨hfd, hok | ⟨herror, hrest, hfails⟩⟩ := ih
      · exact ⟨hfd.trans hsuffix, .inl hok⟩
      · exact ⟨hfd.trans hsuffix, .inr ⟨herror, hrest, hfails.trans hsuffix⟩⟩
  | case2 rp hcnt fd h =>
      obtain ⟨hstream, hanswers⟩ := Source.read_error h
      rw [rioRead_failed hcnt h]
      refine ⟨hanswers ▸ List.suffix_cons _ _, .inr ⟨rfl, ?_, hanswers ▸ List.suffix_rfl⟩⟩
      rw [RioT.unread_of_empty hcnt, ← hstream, RioT.unread, RioT.pending_emptied,
        List.nil_append]
      rfl
  | case3 rp hcnt fd h =>
      obtain ⟨happend, -, hend, hsuffix⟩ := Source.read_ok rioBufsize_pos h
      rw [rioRead_eof hcnt h, RioT.unread_of_empty hcnt]
      refine ⟨hsuffix, .inl ⟨[], rfl, ?_, Nat.zero_le n, hend⟩⟩
      rw [RioT.unread, RioT.pending_emptied]
      exact happend
  | case4 rp hcnt c l fd h =>
      obtain ⟨happend, hlen, -, hsuffix⟩ := Source.read_ok rioBufsize_pos h
      rw [rioRead_filled hcnt h hlen]
      have hfull : ¬(rp.refill fd (c :: l) hlen).cnt ≤ 0 := by
        simp only [RioT.refill, List.length_cons]
        omega
      have hunread : (rp.refill fd (c :: l) hlen).unread = rp.unread := by
        rw [RioT.unread_of_empty hcnt, ← happend, RioT.unread, RioT.pending_refill]
        rfl
      refine ⟨hsuffix, .inl ⟨_, rfl, ?_, List.length_take_le .., ?_⟩⟩
      · rw [RioT.copyOut_append, hunread]
      · exact fun hnil => absurd hnil (RioT.copyOut_ne_nil hn hfull)
  | case5 rp hcnt =>
      rw [rioRead_pending hcnt]
      refine ⟨List.suffix_rfl, .inl ⟨_, rfl, rp.copyOut_append n, List.length_take_le .., ?_⟩⟩
      exact fun hnil => absurd hnil (RioT.copyOut_ne_nil hn hcnt)

theorem rio_moved {rp' : RioT} {l : Text} (hn : 0 < n) (h : rioRead rp n = (.ok l, rp')) :
    l ++ rp'.unread = rp.unread ∧ l.length ≤ n ∧ (l = [] → rp.unread = []) ∧
      rp'.fd.answers.length ≤ rp.fd.answers.length := by
  have hspec := rioRead_spec hn rp
  rw [h] at hspec
  obtain ⟨hsuffix, ⟨l', hl, happend, hlen, hend⟩ | ⟨herror, -, -⟩⟩ := hspec
  · cases hl
    exact ⟨happend, hlen, hend, hsuffix.length_le⟩
  · cases herror

theorem rio_failed {rp' : RioT} {e : Errno} (hn : 0 < n) (h : rioRead rp n = (.error e, rp')) :
    rp'.unread = rp.unread ∧ rp'.fd.answers.length < rp.fd.answers.length := by
  have hspec := rioRead_spec hn rp
  rw [h] at hspec
  obtain ⟨-, ⟨l', hl, -, -, -⟩ | ⟨-, hunread, hsuffix⟩⟩ := hspec
  · cases hl
  · exact ⟨hunread, hsuffix.length_le⟩

end Read

/-- A `rio_t` as a device. -/
def Rio : Device RioT Char where
  read := rioRead
  unread := RioT.unread
  turns rp := rp.fd.answers.length
  moved := rio_moved
  failed := rio_failed

/-! ## The calls -/

/-- What the two loops over `nleft` return, `n - nleft` if there was no
error. -/
def readnRet (r : Text × Bool) : Ret := ⟨if r.2 then r.1.length else -1, r.1⟩

/-- `rio_readn`. -/
def rioReadn (fd : Source Char) (n : Nat) : Ret × Source Char :=
  (readnRet (Device.descriptor.readn n fd).1, (Device.descriptor.readn n fd).2)

/-- `rio_readnb`, the same loop around `rio_read`. -/
def rioReadnb (rp : RioT) (n : Nat) : Ret × RioT :=
  (readnRet (Rio.readn n rp).1, (Rio.readn n rp).2)

/-- The `for` loop of `rio_readlineb`, with `left` rounds to go, and what
follows it. -/
def readlinebLoop : Nat → Nat → RioT → Ret × RioT
  | 0, n, rp => (⟨n, ['\x00']⟩, rp)
  | left + 1, n, rp =>
      match rioRead rp 1 with
      | (.ok (c :: _), rp) =>
          if c = '\n' then (⟨n, [c, '\x00']⟩, rp)
          else
            let rest := readlinebLoop left (n + 1) rp
            (⟨rest.1.val, c :: rest.1.usrbuf⟩, rest.2)
      | (.ok [], rp) => if n = 1 then (⟨0, []⟩, rp) else (⟨n, ['\x00']⟩, rp)
      | (.error _, rp) => (⟨-1, []⟩, rp)

/-- `rio_readlineb`. -/
def rioReadlineb (rp : RioT) (maxlen : Nat) : Ret × RioT := readlinebLoop (maxlen - 1) 1 rp

/-- A call on a `rio_t`. -/
inductive Call where
  | readnb (n : Nat)
  | readlineb (maxlen : Nat)
  deriving DecidableEq

def Call.run : Call → RioT → Ret × RioT
  | .readnb n, rp => rioReadnb rp n
  | .readlineb maxlen, rp => rioReadlineb rp maxlen

/-- One call after the other. -/
def runCalls : List Call → RioT → List Ret × RioT
  | [], rp => ([], rp)
  | c :: calls, rp =>
      let r := c.run rp
      let rest := runCalls calls r.2
      (r.1 :: rest.1, rest.2)

/-! ## The calls on a stream -/

/-- What a line counts for: one more than it has bytes, if no newline ends
it. -/
def lineVal (line : Text) : Int :=
  if line.getLast? = some '\n' then line.length else line.length + 1

/-- What the calls are for: they take the next bytes, or the next line, of a
stream. -/
def Call.onStream : Call → Text → Ret × Text
  | .readnb n, s => (⟨(s.take n).length, s.take n⟩, s.drop n)
  | .readlineb maxlen, s =>
      if s = [] ∧ 1 < maxlen then (⟨0, []⟩, [])
      else
        let line := takeLine '\n' (maxlen - 1) s
        (⟨lineVal line.1, line.1 ++ ['\x00']⟩, line.2)

def onStream : List Call → Text → List Ret × Text
  | [], s => ([], s)
  | c :: calls, s =>
      let r := c.onStream s
      let rest := onStream calls r.2
      (r.1 :: rest.1, rest.2)

/-- The bytes that came from the stream: the terminator did not. -/
def Call.taken : Call → Ret → Text
  | .readnb _, r => r.usrbuf
  | .readlineb _, r => if 0 < r.val then r.usrbuf.dropLast else r.usrbuf

/-! ## The buffer is not seen -/

/-- As long as the descriptor is steady, `rio_read` does not fail. -/
theorem rio_keeps : Rio.Keeps (fun rp => rp.fd.Steady) fun _ => False := by
  intro rp n r rp' hn hsteady h
  have hspec := rioRead_spec hn rp
  change rioRead rp n = (r, rp') at h
  rw [h] at hspec
  obtain ⟨hsuffix, hcase⟩ := hspec
  refine ⟨fun hmem => hsteady (hsuffix.subset hmem), ?_⟩
  rintro e rfl
  obtain ⟨l, hl, -⟩ | ⟨-, -, hfails⟩ := hcase
  · cases hl
  · exact hsteady (hfails.subset List.mem_cons_self)

theorem lineVal_cons {c : Char} {line : Text} (hc : c ≠ '\n') :
    lineVal (c :: line) = lineVal line + 1 := by
  have hlast : (c :: line).getLast? = some '\n' ↔ line.getLast? = some '\n' := by
    cases line with
    | nil => simp [hc]
    | cons c' line => simp
  simp only [lineVal, hlast, List.length_cons]
  split <;> push_cast <;> omega

/-- The line that a loop with `left` rounds takes off a stream, counting from
`n`. -/
def lineFrom (left n : Nat) (s : Text) : Ret × Text :=
  if s = [] ∧ 0 < left ∧ n = 1 then (⟨0, []⟩, [])
  else
    let line := takeLine '\n' left s
    (⟨n - 1 + lineVal line.1, line.1 ++ ['\x00']⟩, line.2)

/-- One round of the loop, by what `rio_read` gave. -/
theorem readlinebLoop_line {left n : Nat} (rp : RioT) (hn : 0 < n)
    (h : (readlinebLoop left n rp).1.val ≠ -1) :
    ((readlinebLoop left n rp).1, (readlinebLoop left n rp).2.unread) =
      lineFrom left n rp.unread := by
  induction left generalizing n rp with
  | zero =>
      have hval : lineVal [] = 1 := rfl
      rw [lineFrom, if_neg (by omega), readlinebLoop]
      simp [takeLine, hval]
  | succ left ih =>
      obtain ⟨-, ⟨l, hl, happend, hlen, hend⟩ | ⟨herror, -, -⟩⟩ := rioRead_spec Nat.one_pos rp
      · obtain ⟨rp', hrp'⟩ : ∃ rp', (rioRead rp 1).2 = rp' := ⟨_, rfl⟩
        have hread : rioRead rp 1 = (.ok l, rp') := Prod.ext hl hrp'
        rw [hrp'] at happend
        rw [readlinebLoop, hread] at h ⊢
        cases l with
        | nil =>
            rw [List.nil_append] at happend
            have hnil := hend rfl
            rw [hnil] at happend ⊢
            have hval : lineVal [] = 1 := rfl
            by_cases hone : n = 1
            · simp [lineFrom, hone, happend]
            · simp [lineFrom, hone, happend, takeLine, hval]
        | cons c l =>
            obtain rfl : l = [] := by simpa using hlen
            rw [List.singleton_append] at happend
            rw [lineFrom, if_neg (by simp [← happend]), ← happend]
            by_cases hc : c = '\n'
            · simp [hc, takeLine, lineVal]
            · simp only [hc, if_false] at h ⊢
              have hrest := ih rp' (Nat.succ_pos n) h
              rw [lineFrom, if_neg (by omega), Prod.mk.injEq] at hrest
              rw [hrest.1, hrest.2, takeLine, if_neg hc]
              simp only [lineVal_cons hc, Prod.mk.injEq, Ret.mk.injEq, List.cons_append, and_true]
              push_cast
              omega
      · exfalso
        obtain ⟨rp', hrp'⟩ : ∃ rp', (rioRead rp 1).2 = rp' := ⟨_, rfl⟩
        rw [readlinebLoop, show rioRead rp 1 = (.error .other, rp') from Prod.ext herror hrp'] at h
        exact h rfl

/-- What the loop wrote came off the stream, but for the terminator that a
call that returns something positive adds. -/
theorem readlinebLoop_append (left n : Nat) (rp : RioT) (hn : 0 < n) :
    ((readlinebLoop left n rp).1.val ≤ 0 ∧
        (readlinebLoop left n rp).1.usrbuf ++ (readlinebLoop left n rp).2.unread = rp.unread) ∨
      0 < (readlinebLoop left n rp).1.val ∧
        ∃ line, (readlinebLoop left n rp).1.usrbuf = line ++ ['\x00'] ∧
          line ++ (readlinebLoop left n rp).2.unread = rp.unread := by
  induction left generalizing n rp with
  | zero => exact .inr ⟨Int.natCast_pos.mpr hn, [], rfl, rfl⟩
  | succ left ih =>
      obtain ⟨r, rp', hread⟩ : ∃ r rp', rioRead rp 1 = (r, rp') := ⟨_, _, rfl⟩
      rw [readlinebLoop, hread]
      cases r with
      | error e => exact .inl ⟨failed_nonpos, (rio_failed Nat.one_pos hread).1⟩
      | ok l =>
          obtain ⟨happend, hlen, -, -⟩ := rio_moved Nat.one_pos hread
          cases l with
          | nil =>
              by_cases hone : n = 1
              · simp only [hone, if_true]
                exact .inl ⟨le_rfl, happend⟩
              · simp only [hone, if_false]
                exact .inr ⟨Int.natCast_pos.mpr hn, [], rfl, happend⟩
          | cons c l =>
              obtain rfl : l = [] := by simpa using hlen
              by_cases hc : c = '\n'
              · simp only [hc, if_true]
                exact .inr ⟨Int.natCast_pos.mpr hn, ['\n'], rfl, hc ▸ happend⟩
              · simp only [hc, if_false]
                obtain ⟨hval, hrest⟩ | ⟨hval, line, hline, hrest⟩ := ih (n + 1) rp' n.succ_pos
                · exact .inl ⟨hval, by rw [List.cons_append, hrest, ← happend]; rfl⟩
                · exact .inr ⟨hval, c :: line, by rw [hline]; rfl,
                    by rw [List.cons_append, hrest, ← happend]; rfl⟩

theorem readlinebLoop_steady (left n : Nat) {rp : RioT} (hn : 0 < n) (h : rp.fd.Steady) :
    0 ≤ (readlinebLoop left n rp).1.val ∧ (readlinebLoop left n rp).2.fd.Steady := by
  induction left generalizing n rp with
  | zero => exact ⟨Int.natCast_nonneg n, h⟩
  | succ left ih =>
      obtain ⟨r, rp', hread⟩ : ∃ r rp', rioRead rp 1 = (r, rp') := ⟨_, _, rfl⟩
      obtain ⟨hsteady, herror⟩ := rio_keeps Nat.one_pos h hread
      rw [readlinebLoop, hread]
      cases r with
      | error e => exact (herror e rfl).elim
      | ok l =>
          cases l with
          | nil =>
              by_cases hone : n = 1
              · simp only [hone, if_true]
                exact ⟨le_rfl, hsteady⟩
              · simp only [hone, if_false]
                exact ⟨Int.natCast_nonneg n, hsteady⟩
          | cons c l =>
              by_cases hc : c = '\n'
              · simp only [hc, if_true]
                exact ⟨Int.natCast_nonneg n, hsteady⟩
              · simp only [hc, if_false]
                exact ih (n + 1) n.succ_pos hsteady

/-! ## One call -/

/-- No byte is lost or comes twice, whatever the descriptor does. -/
theorem Call.run_append (c : Call) (rp : RioT) :
    c.taken (c.run rp).1 ++ (c.run rp).2.unread = rp.unread := by
  cases c with
  | readnb n => exact Rio.readn_append n rp
  | readlineb maxlen =>
      change (if 0 < (readlinebLoop (maxlen - 1) 1 rp).1.val then _ else _) ++ _ = _
      obtain ⟨hval, h⟩ | ⟨hval, line, hline, h⟩ :=
        readlinebLoop_append (maxlen - 1) 1 rp Nat.one_pos
      · rw [if_neg (Int.not_lt.mpr hval)]
        exact h
      · rw [if_pos hval]
        change (readlinebLoop (maxlen - 1) 1 rp).1.usrbuf.dropLast ++ _ = _
        rw [hline, List.dropLast_concat]
        exact h

/-- A call that does not fail does what it is for. -/
theorem Call.run_onStream (c : Call) (rp : RioT) (h : (c.run rp).1.val ≠ -1) :
    ((c.run rp).1, (c.run rp).2.unread) = c.onStream rp.unread := by
  cases c with
  | readnb n =>
      have htrue : (Rio.readn n rp).1.2 = true := by
        by_contra hfalse
        exact h (by simp [Call.run, rioReadnb, readnRet, hfalse])
      have hread : (Rio.readn n rp).1.1 = rp.unread.take n := Rio.readn_eq n rp htrue
      have hrest := Rio.readn_append n rp
      rw [hread] at hrest
      have hdrop : (Rio.readn n rp).2.unread = rp.unread.drop n :=
        List.append_cancel_left (hrest.trans (List.take_append_drop n rp.unread).symm)
      simp only [Call.run, rioReadnb, readnRet, htrue, if_true, hread, hdrop, Call.onStream]
  | readlineb maxlen =>
      have hfrom : lineFrom (maxlen - 1) 1 rp.unread =
          (Call.readlineb maxlen).onStream rp.unread := by
        have hone : ((1 : Nat) : Int) - 1 = 0 := rfl
        simp only [lineFrom, Call.onStream, hone, Int.zero_add, and_true, Nat.lt_sub_iff_add_lt]
      exact (readlinebLoop_line rp Nat.one_pos h).trans hfrom

theorem Call.run_steady (c : Call) {rp : RioT} (h : rp.fd.Steady) :
    (c.run rp).1.val ≠ -1 ∧ (c.run rp).2.fd.Steady := by
  cases c with
  | readnb n =>
      obtain ⟨htrue, hsteady⟩ := rio_keeps.readn not_false n h
      refine ⟨?_, hsteady⟩
      simp only [Call.run, rioReadnb, readnRet, htrue, if_true]
      omega
  | readlineb maxlen =>
      obtain ⟨hval, hsteady⟩ := readlinebLoop_steady (maxlen - 1) 1 Nat.one_pos h
      exact ⟨ne_of_gt (Int.lt_of_lt_of_le (by decide) hval), hsteady⟩

/-! ## Every run of calls -/

/-- All the bytes that the calls took. -/
def takenAll (calls : List Call) (rets : List Ret) : Text :=
  (List.zipWith Call.taken calls rets).flatten

theorem runCalls_append (calls : List Call) (rp : RioT) :
    takenAll calls (runCalls calls rp).1 ++ (runCalls calls rp).2.unread = rp.unread := by
  induction calls generalizing rp with
  | nil => rfl
  | cons c calls ih =>
      have hrest := ih (c.run rp).2
      rw [takenAll] at hrest ⊢
      rw [runCalls, List.zipWith_cons_cons, List.flatten_cons, List.append_assoc, hrest]
      exact c.run_append rp

theorem runCalls_prefix (calls : List Call) (rp : RioT) :
    ((runCalls calls rp).1.takeWhile fun r => decide (r.val ≠ -1)) <+:
      (onStream calls rp.unread).1 := by
  induction calls generalizing rp with
  | nil => exact List.prefix_rfl
  | cons c calls ih =>
      rw [runCalls, onStream, List.takeWhile_cons]
      by_cases hval : (c.run rp).1.val = -1
      · simp [hval]
      · rw [← c.run_onStream rp hval]
        simp only [hval, ne_eq, not_false_eq_true, decide_true, if_true]
        exact List.cons_prefix_cons.mpr ⟨rfl, ih (c.run rp).2⟩

theorem runCalls_steady (calls : List Call) (rp : RioT) (h : rp.fd.Steady) :
    ((runCalls calls rp).1, (runCalls calls rp).2.unread) = onStream calls rp.unread := by
  induction calls generalizing rp with
  | nil => rfl
  | cons c calls ih =>
      obtain ⟨hval, hsteady⟩ := c.run_steady h
      have hrest := ih _ hsteady
      rw [runCalls, onStream, ← c.run_onStream rp hval, ← hrest]

/-- A `rio_t` that was just initialised has the stream of the descriptor
before it. -/
theorem unread_rioReadinitb (rp : RioT) (fd : Source Char) :
    (rioReadinitb rp fd).unread = fd.stream := RioT.unread_of_empty le_rfl

/-- Two lines that come in three pieces, and a call in between is interrupted. -/
def twoLines : Source Char :=
  ⟨"a\r\nbc\n".toList, [.moves 2, .fails .eintr, .moves 1, .fails .eintr, .moves 0]⟩

/-- A `rio_t` before it is initialised. -/
def rioZero : RioT where
  fd := ⟨[], []⟩
  cnt := 0
  buf := List.replicate rioBufsize '\x00'
  bufptr := 0
  size := List.length_replicate ..
  inside := RioT.inside_init

/-- **The two readers agree**: `rio_readn` takes the next `n` bytes, or all
there are, in however many pieces they come, and `rio_readnb` through a fresh
buffer gives the same. -/
theorem rio_readn_whole (rp : RioT) (fd : Source Char) (n : Nat) :
    (rioReadn fd n).1.usrbuf ++ (rioReadn fd n).2.stream = fd.stream ∧
      ((rioReadn fd n).1.val ≠ -1 →
        (rioReadn fd n).1 = ⟨(fd.stream.take n).length, fd.stream.take n⟩) ∧
      (fd.Steady → (rioReadn fd n).1.val ≠ -1 ∧
        (rioReadnb (rioReadinitb rp fd) n).1 = (rioReadn fd n).1) := by
  have hwhole : (rioReadn fd n).1.val ≠ -1 →
      (rioReadn fd n).1 = ⟨(fd.stream.take n).length, fd.stream.take n⟩ := by
    intro hval
    have htrue : (Device.descriptor.readn n fd).1.2 = true := by
      by_contra hfalse
      exact hval (by simp [rioReadn, readnRet, hfalse])
    have hread : (Device.descriptor.readn n fd).1.1 = fd.stream.take n :=
      Device.readn_eq n fd htrue
    simp only [rioReadn, readnRet, htrue, if_true, hread]
  refine ⟨Device.readn_append n fd, hwhole, fun hsteady => ?_⟩
  have htrue := (Source.Steady.keeps.readn (by decide) n hsteady).1
  have hval : (rioReadn fd n).1.val ≠ -1 := by
    simp only [rioReadn, readnRet, htrue, if_true]
    omega
  have hsteady' : (rioReadinitb rp fd).fd.Steady := hsteady
  have hbuffered := Call.run_onStream (.readnb n) _ (Call.run_steady (.readnb n) hsteady').1
  rw [unread_rioReadinitb] at hbuffered
  exact ⟨hval, (congrArg Prod.fst hbuffered).trans (hwhole hval).symm⟩

theorem rio_readn_whole_twoLines :
    (rioReadn twoLines 5).1.usrbuf = "a\r\nbc".toList := by
  have hwhole := rio_readn_whole rioZero twoLines 5
  rw [hwhole.2.1 (hwhole.2.2 (by decide)).1]
  decide

/-! ## Writing -/

section Write

variable {l : Text} {fd fd' : Sink Char}

theorem write_progress {k : Nat} (hl : l ≠ []) (h : fd.write l = (some k, fd')) :
    (l.drop k).length + fd'.answers.length < l.length + fd.answers.length := by
  obtain ⟨-, hle, hlt | ⟨hk, hanswers⟩⟩ := Sink.write_some h
  · rw [List.length_drop]
    omega
  · have hpos := List.length_pos_iff.mpr hl
    rw [List.length_drop, hanswers]
    omega

theorem write_progress_none (h : fd.write l = (none, fd')) :
    l.length + fd'.answers.length < l.length + fd.answers.length :=
  Nat.add_lt_add_left (Sink.write_none h).2 _

/-- The loop of `rio_writen`, and whether it reached its end; `l` is what is
left to write. A call that wrote nothing is taken for one that failed, and
`errno` may then be an old one. -/
def writenLoop (l : Text) (fd : Sink Char) : Bool × Sink Char :=
  if _hl : l ≠ [] then
    match _h : fd.write l with
    | (some (k + 1), fd') => writenLoop (l.drop (k + 1)) fd'
    | (some 0, fd') => if fd'.errno = .eintr then writenLoop (l.drop 0) fd' else (false, fd')
    | (none, fd') => if fd'.errno = .eintr then writenLoop l fd' else (false, fd')
  else (true, fd)
termination_by l.length + fd.answers.length
decreasing_by
  · exact write_progress _hl _h
  · exact write_progress _hl _h
  · exact write_progress_none _h

/-- `rio_writen`. -/
def rioWriten (fd : Sink Char) (usrbuf : Text) : Int × Sink Char :=
  (if (writenLoop usrbuf fd).1 then usrbuf.length else -1, (writenLoop usrbuf fd).2)

@[simp] theorem writenLoop_nil : writenLoop [] fd = (true, fd) := by
  rw [writenLoop, dif_neg (not_not.mpr rfl)]

theorem writenLoop_wrote {k : Nat} (hl : l ≠ []) (h : fd.write l = (some (k + 1), fd')) :
    writenLoop l fd = writenLoop (l.drop (k + 1)) fd' := by
  rw [writenLoop, dif_pos hl]
  split <;> simp_all

theorem writenLoop_zero (hl : l ≠ []) (h : fd.write l = (some 0, fd')) :
    writenLoop l fd = if fd'.errno = .eintr then writenLoop l fd' else (false, fd') := by
  rw [writenLoop, dif_pos hl]
  split <;> simp_all

theorem writenLoop_none (hl : l ≠ []) (h : fd.write l = (none, fd')) :
    writenLoop l fd = if fd'.errno = .eintr then writenLoop l fd' else (false, fd') := by
  rw [writenLoop, dif_pos hl]
  split <;> simp_all

/-- What was written is a front part, and all of it if and only if the loop
reached its end. -/
theorem writenLoop_prefix (l : Text) (fd : Sink Char) :
    ∃ front back, l = front ++ back ∧ (writenLoop l fd).2.written = fd.written ++ front ∧
      ((writenLoop l fd).1 = true ↔ back = []) := by
  induction hm : l.length + fd.answers.length using Nat.strong_induction_on generalizing l fd with
  | _ m ih =>
      subst hm
      by_cases hl : l = []
      · subst hl
        exact ⟨[], [], rfl, by simp, by simp⟩
      · obtain ⟨r, fd', h⟩ : ∃ r fd', fd.write l = (r, fd') := ⟨_, _, rfl⟩
        -- a call that wrote nothing, made again or not
        have hagain (hw : fd'.written = fd.written)
            (hlt : l.length + fd'.answers.length < l.length + fd.answers.length)
            (heq : writenLoop l fd =
              if fd'.errno = .eintr then writenLoop l fd' else (false, fd')) :
            ∃ front back, l = front ++ back ∧ (writenLoop l fd).2.written = fd.written ++ front ∧
              ((writenLoop l fd).1 = true ↔ back = []) := by
          rw [heq]
          by_cases herrno : fd'.errno = .eintr
          · rw [if_pos herrno, ← hw]
            exact ih _ hlt _ _ rfl
          · rw [if_neg herrno]
            exact ⟨[], l, rfl, by simp [hw], by simp [hl]⟩
        cases r with
        | none => exact hagain (Sink.write_none h).1 (write_progress_none h) (writenLoop_none hl h)
        | some k =>
            have hwritten := (Sink.write_some h).1
            have hlt := write_progress hl h
            cases k with
            | zero =>
                exact hagain (by rw [hwritten, List.take_zero, List.append_nil]) hlt
                  (writenLoop_zero hl h)
            | succ k =>
                obtain ⟨front, back, hsplit, hrest, hend⟩ := ih _ hlt _ fd' rfl
                rw [writenLoop_wrote hl h]
                refine ⟨l.take (k + 1) ++ front, back, ?_, ?_, hend⟩
                · rw [List.append_assoc, ← hsplit, List.take_append_drop]
                · rw [hrest, hwritten, List.append_assoc]

theorem writenLoop_willing (l : Text) {fd : Sink Char} (hfd : fd.Willing) :
    (writenLoop l fd).1 = true ∧ (writenLoop l fd).2.Willing := by
  induction hm : l.length + fd.answers.length using Nat.strong_induction_on generalizing l fd with
  | _ m ih =>
      subst hm
      by_cases hl : l = []
      · subst hl
        simpa using hfd
      · obtain ⟨r, fd', h⟩ : ∃ r fd', fd.write l = (r, fd') := ⟨_, _, rfl⟩
        obtain ⟨hfd', hzero, hnone⟩ := hfd.write hl h
        cases r with
        | none =>
            rw [writenLoop_none hl h, if_pos (hnone rfl)]
            exact ih _ (write_progress_none h) _ hfd' rfl
        | some k =>
            cases k with
            | zero => exact absurd rfl hzero
            | succ k =>
                rw [writenLoop_wrote hl h]
                exact ih _ (write_progress hl h) _ hfd' rfl

/-- `Rio_writen` on one array after the other, and whether none of the calls
failed: one that does ends the process. -/
def writeAll : List Text → Sink Char → Bool × Sink Char
  | [], fd => (true, fd)
  | buf :: bufs, fd =>
      let r := rioWriten fd buf
      if r.1 ≠ buf.length then (false, r.2) else writeAll bufs r.2

/-- **Writing is in order and whole**: what leaves is a front part of what was
given, all of it if the process goes on, and that it does if the descriptor
takes something in each call that is not interrupted. -/
theorem writeAll_in_order (bufs : List Text) (fd : Sink Char) :
    (∃ front back, bufs.flatten = front ++ back ∧
        (writeAll bufs fd).2.written = fd.written ++ front ∧
        ((writeAll bufs fd).1 = true ↔ back = [])) ∧
      (fd.Willing → (writeAll bufs fd).1 = true) := by
  induction bufs generalizing fd with
  | nil => exact ⟨⟨[], [], rfl, by simp [writeAll], by simp [writeAll]⟩, fun _ => rfl⟩
  | cons buf bufs ih =>
      obtain ⟨front, back, hsplit, hwritten, hend⟩ := writenLoop_prefix buf fd
      obtain ⟨⟨front', back', hsplit', hwritten', hend'⟩, hwilling⟩ := ih (writenLoop buf fd).2
      have hret : (rioWriten fd buf).1 ≠ buf.length ↔ (writenLoop buf fd).1 = false := by
        rw [rioWriten]
        cases (writenLoop buf fd).1 <;> simp
      simp only [writeAll, hret]
      cases hok : (writenLoop buf fd).1 with
      | false =>
          simp only [if_true]
          have hback : back ≠ [] := fun h => by simp [hend.mpr h] at hok
          refine ⟨⟨front, back ++ bufs.flatten, ?_, hwritten, by simp [hback]⟩, fun h => ?_⟩
          · rw [List.flatten_cons, hsplit, List.append_assoc]
          · rw [(writenLoop_willing buf h).1] at hok
            cases hok
      | true =>
          simp only [Bool.true_eq_false, if_false]
          obtain rfl := hend.mp hok
          refine ⟨⟨front ++ front', back', ?_, ?_, hend'⟩, fun h => ?_⟩
          · rw [List.flatten_cons, hsplit, hsplit', List.append_nil, List.append_assoc]
          · rw [← List.append_assoc, ← hwritten]
            exact hwritten'
          · exact hwilling (writenLoop_willing buf h).2

end Write

/-! ## From one end to the other -/

/-- A reader that takes each array by its length. -/
def readers (bufs : List Text) : List Call := bufs.map fun buf => .readnb buf.length

theorem onStream_readers (bufs : List Text) (s : Text) :
    ((onStream (readers bufs) s).1.map Ret.usrbuf).flatten = s.take bufs.flatten.length := by
  induction bufs generalizing s with
  | nil => simp [readers, onStream]
  | cons buf bufs ih =>
      have hrest := ih (s.drop buf.length)
      rw [readers] at hrest ⊢
      rw [List.map_cons, onStream, List.map_cons, List.flatten_cons, Call.onStream, hrest,
        List.flatten_cons, List.length_append, List.take_add]

theorem onStream_readers_flatten (bufs : List Text) :
    (onStream (readers bufs) bufs.flatten).1.map Ret.usrbuf = bufs := by
  induction bufs with
  | nil => rfl
  | cons buf bufs ih =>
      rw [readers] at ih ⊢
      rw [List.map_cons, onStream, List.map_cons, Call.onStream, List.flatten_cons,
        List.take_left, List.drop_left, ih]

/-- **What is written is what is read**, through short writes, short reads and
interruptions on both sides: a reader gets a front part of what the writer was
given, in order, and each array as it was if no call of the writer failed. -/
theorem written_is_read (bufs : List Text) (rp : RioT) {answers answers' : List Answer}
    {errno : Errno} {fd : Sink Char} {ok : Bool}
    (hwrite : writeAll bufs ⟨[], answers, errno⟩ = (ok, fd))
    (hsteady : Source.Steady ⟨fd.written, answers'⟩) :
    let read := (runCalls (readers bufs) (rioReadinitb rp ⟨fd.written, answers'⟩)).1
    (read.map Ret.usrbuf).flatten = fd.written ∧ fd.written <+: bufs.flatten ∧
      (ok = true ↔ read.map Ret.usrbuf = bufs) := by
  intro read
  obtain ⟨front, back, hsplit, hwritten, hend⟩ := (writeAll_in_order bufs ⟨[], answers, errno⟩).1
  rw [hwrite, List.nil_append] at hwritten
  rw [hwrite] at hend
  have hread : read = (onStream (readers bufs) fd.written).1 := by
    have hcalls := runCalls_steady (readers bufs) (rioReadinitb rp ⟨fd.written, answers'⟩) hsteady
    rw [unread_rioReadinitb] at hcalls
    exact congrArg Prod.fst hcalls
  have hflatten : (read.map Ret.usrbuf).flatten = fd.written := by
    rw [hread, onStream_readers, List.take_of_length_le]
    rw [hsplit, hwritten, List.length_append]
    exact Nat.le_add_right _ _
  refine ⟨hflatten, ⟨back, hwritten ▸ hsplit.symm⟩, hend.trans ⟨fun hback => ?_, fun hsame => ?_⟩⟩
  · have hall : fd.written = bufs.flatten := by
      rw [hwritten, hsplit, hback, List.append_nil]
    rw [hread, hall]
    exact onStream_readers_flatten bufs
  · rw [hsame, hsplit, hwritten] at hflatten
    exact List.self_eq_append_right.mp hflatten.symm

theorem written_is_read_pieces :
    let bufs := ["HTTP".toList, "\r\n".toList]
    let fd := (writeAll bufs ⟨[], [.moves 3, .fails .eintr], .other⟩).2
    (runCalls (readers bufs) (rioReadinitb rioZero ⟨fd.written, [.moves 1, .fails .eintr]⟩)).1.map
      Ret.usrbuf = bufs := by
  intro bufs fd
  have hok := (writeAll_in_order bufs ⟨[], [.moves 3, .fails .eintr], .other⟩).2 (by decide)
  have hsteady : Source.Steady ⟨fd.written, [.moves 1, .fails .eintr]⟩ := by
    simp [Source.Steady]
  exact (written_is_read bufs rioZero (Prod.ext hok rfl) hsteady).2.2.mp rfl

end OsAllHw.Server.Segel
