import OsAllHw.Lib.Message
import OsAllHw.Server.Headers
import OsAllHw.Server.Rio

/-!
# `request.c`: what a client gets

The responses, byte by byte. `sprintf(buf, "%s...", buf)` is read as an
append, which is what it does where it is not checked. What the server prints
on its own output is left out, but for what a child may take of it.
-/

namespace OsAllHw.Server

open Lib Segel

/-! ## Times -/

/-- `struct timeval`. -/
structure Timeval where
  sec : Int
  usec : Int
  deriving DecidableEq

/-- All of it in microseconds. -/
def Timeval.micros (t : Timeval) : Int := t.sec * 1000000 + t.usec

/-- What a handler reads of its `QueueNode`, but for the connection. -/
structure Times where
  arrivalTime : Timeval
  dispatchTime : Timeval
  deriving DecidableEq

/-- A `tv_usec` above its range is carried. -/
def carry (t : Timeval) : Timeval :=
  if 999999 < t.usec then ⟨t.sec + t.usec / 1000000, t.usec % 1000000⟩ else t

/-- `res`, the time in the queue. -/
def interval (req : Times) : Timeval :=
  let dispatch := carry req.dispatchTime
  let arrival := carry req.arrivalTime
  if dispatch.usec - arrival.usec < 0 then
    ⟨dispatch.sec - arrival.sec - 1, 1000000 + dispatch.usec - arrival.usec⟩
  else ⟨dispatch.sec - arrival.sec, dispatch.usec - arrival.usec⟩

theorem carry_spec {t : Timeval} (h : 0 ≤ t.usec) :
    (carry t).micros = t.micros ∧ 0 ≤ (carry t).usec ∧ (carry t).usec < 1000000 := by
  by_cases hbig : 999999 < t.usec
  · simp only [carry, if_pos hbig, Timeval.micros]
    omega
  · rw [carry, if_neg hbig]
    exact ⟨rfl, h, by omega⟩

/-- The difference is normal, and it is the difference. -/
theorem interval_spec {req : Times} (harrival : 0 ≤ req.arrivalTime.usec)
    (hdispatch : 0 ≤ req.dispatchTime.usec) :
    (interval req).micros = req.dispatchTime.micros - req.arrivalTime.micros ∧
      0 ≤ (interval req).usec ∧ (interval req).usec < 1000000 := by
  obtain ⟨ha, ha0, ha1⟩ := carry_spec harrival
  obtain ⟨hd, hd0, hd1⟩ := carry_spec hdispatch
  simp only [Timeval.micros] at ha hd ⊢
  by_cases hborrow : (carry req.dispatchTime).usec - (carry req.arrivalTime).usec < 0
  · simp only [interval, if_pos hborrow]
    omega
  · simp only [interval, if_neg hborrow]
    omega

/-! ## Numbers -/

/-- `%lu`. -/
def printLu (n : Int) : Text := Nat.toDigits 10 (n % 2 ^ 64).toNat

/-- `%06lu`. -/
def print06lu (n : Int) : Text := padded 6 (n % 2 ^ 64).toNat

/-- `%lu.%06lu`. -/
def printTimeval (t : Timeval) : Text := printLu t.sec ++ '.' :: print06lu t.usec

/-- Two numerals with a point between them. -/
def readTimeval (l : Text) : Option Timeval := do
  let sec ← numeral (l.takeWhile fun c => decide (c ≠ '.'))
  let usec ← numeral ((l.dropWhile fun c => decide (c ≠ '.')).drop 1)
  return ⟨sec, usec⟩

theorem digit_ne_dot {n : Nat} {c : Char} (h : c ∈ Nat.toDigits 10 n) : c ≠ '.' := by
  rintro rfl
  exact absurd (Nat.isDigit_of_mem_toDigits (by decide) le_rfl h) (by decide)

/-- A time that is not before the epoch is read back. -/
theorem readTimeval_print {t : Timeval} (hsec : 0 ≤ t.sec) (hsec' : t.sec < 2 ^ 64)
    (husec : 0 ≤ t.usec) (husec' : t.usec < 1000000) :
    readTimeval (printTimeval t) = some t := by
  have hdigits : ∀ c ∈ printLu t.sec, decide (c ≠ '.') = true := fun c hc =>
    decide_eq_true (digit_ne_dot hc)
  have hmod : (t.sec % 2 ^ 64).toNat = t.sec.toNat ∧ (t.usec % 2 ^ 64).toNat = t.usec.toNat := by
    omega
  rw [readTimeval, printTimeval, List.takeWhile_append_of_pos hdigits,
    List.takeWhile_cons_of_neg (by decide), List.append_nil,
    List.dropWhile_append_of_pos hdigits, List.dropWhile_cons_of_neg (by decide), List.drop_one,
    List.tail_cons, printLu, print06lu, numeral_toDigits, numeral_padded, hmod.1, hmod.2]
  simp only [Option.bind_eq_bind, Option.bind_some, pure, Option.some.injEq]
  rw [Int.toNat_of_nonneg hsec, Int.toNat_of_nonneg husec]

/-! ## The responses -/

/-- `INT_MAX`. -/
def intMax : Nat := 2 ^ 31 - 1

/-- `struct Stats`, whose counters start at zero; none is increased beyond
`intMax`. -/
structure Stats where
  threadId : Nat
  threadCount : Nat
  threadStatic : Nat
  threadDynamic : Nat
  deriving DecidableEq

/-- The counters when a request has begun. -/
def Stats.begun (stats : Stats) : Stats := { stats with threadCount := stats.threadCount + 1 }

/-- `init_stats`. -/
def initStats (threadIdIn : Nat) : Stats := ⟨threadIdIn, 0, 0, 0⟩

/-- `%d` of a number that is not negative. -/
def printD (n : Nat) : Text := Nat.toDigits 10 n

/-- The lines that every response has. -/
def statLines (req : Times) (stats : Stats) : List Text :=
  ["Stat-Req-Arrival:: ".toList ++ printTimeval req.arrivalTime,
   "Stat-Req-Dispatch:: ".toList ++ printTimeval (interval req),
   "Stat-Thread-Id:: ".toList ++ printD stats.threadId,
   "Stat-Thread-Count:: ".toList ++ printD stats.threadCount,
   "Stat-Thread-Static:: ".toList ++ printD stats.threadStatic,
   "Stat-Thread-Dynamic:: ".toList ++ printD stats.threadDynamic]

def crlfLine (line : Text) : Text := line ++ crlf

/-- The page of `requestError`. -/
def errorBody (cause errnum shortmsg longmsg : Text) : Text :=
  "<html><title>OS-HW3 Error</title>".toList ++
  crlfLine "<body bgcolor=fffff>".toList ++
  crlfLine (errnum ++ ": ".toList ++ shortmsg) ++
  crlfLine ("<p>".toList ++ longmsg ++ ": ".toList ++ cause) ++
  crlfLine "<hr>OS-HW3 Web Server".toList

/-- What a handler leaves: the connection, whether the process goes on, and
the thread's counters. -/
structure Handled where
  fd : Sink Char
  alive : Bool
  stats : Stats
  deriving DecidableEq

/-- What becomes of a program that is to be run. -/
inductive Child where
  /-- `Fork` fails. -/
  | unborn
  /-- `Setenv`, `Dup2` or `Execve` fails, and the child exits; with that it may
  flush what the server had printed. -/
  | exits (flushed : Text)
  /-- The program runs, writes this, and ends. -/
  | runs (output : Text)
  deriving DecidableEq

/-- What it leaves on the connection. -/
def Child.sends : Child → Text
  | .unborn => []
  | .exits flushed => flushed
  | .runs output => output

/-- What the handlers find outside. -/
structure Site where
  stat : Text → Option Stat
  /-- `Open` and `Mmap`, and the bytes of the file. -/
  openFile : Text → Option Text
  /-- The program and its arguments. -/
  cgi : Text → Text → Child
  /-- `stat` gives the size that the file has. -/
  sizes : ∀ filename sbuf file, stat filename = some sbuf → openFile filename = some file →
    file.length = sbuf.size

/-- `MAXBUF`. -/
def maxbuf : Nat := 8192

/-- `requestError`, in four calls of `Rio_writen`. -/
def requestError (fd : Sink Char) (req : Times) (cause errnum shortmsg longmsg : Text)
    (stats : Stats) : Except Undefined Handled :=
  let body := errorBody cause errnum shortmsg longmsg
  if body.length + 1 ≤ maxbuf then
    let r := writeAll
      [crlfLine ("HTTP/1.0 ".toList ++ errnum ++ ' ' :: shortmsg),
       crlfLine "Content-Type: text/html".toList,
       crlfLine ("Content-Length: ".toList ++ printD body.length) ++
         (statLines req stats).flatMap crlfLine ++ crlf,
       body] fd
    .ok ⟨r.2, r.1, stats⟩
  else .error .body

/-- `requestGetFiletype`. -/
def requestGetFiletype (filename : Text) : Text :=
  if ".html".toList <:+: filename then "text/html".toList
  else if ".gif".toList <:+: filename then "image/gif".toList
  else if ".jpg".toList <:+: filename then "image/jpeg".toList
  else "text/plain".toList

/-- `requestServeStatic`. `Mmap` refuses a length of zero, and one so large as
a negative `int` is taken for. -/
def requestServeStatic (site : Site) (fd : Sink Char) (req : Times) (filename : Text)
    (filesize : Int) (stats : Stats) : Handled :=
  match site.openFile filename with
  | none => ⟨fd, false, stats⟩
  | some file =>
      if filesize ≤ 0 then ⟨fd, false, stats⟩
      else
        let r := writeAll
          [crlfLine "HTTP/1.0 200 OK".toList ++
            crlfLine "Server: OS-HW3 Web Server".toList ++
            crlfLine ("Content-Length: ".toList ++ printD filesize.toNat) ++
            crlfLine ("Content-Type: ".toList ++ requestGetFiletype filename) ++
            (statLines req stats).flatMap crlfLine ++ crlf,
           file.take filesize.toNat] fd
        ⟨r.2, r.1, stats⟩

/-- `requestServeDynamic`; the program writes the rest of the head. What fails in
the child ends the child only. -/
def requestServeDynamic (site : Site) (fd : Sink Char) (req : Times) (filename cgiargs : Text)
    (stats : Stats) : Handled :=
  let r := writeAll
    [crlfLine "HTTP/1.0 200 OK".toList ++ crlfLine "Server: OS-HW3 Web Server".toList ++
      (statLines req stats).flatMap crlfLine] fd
  if r.1 then
    match site.cgi filename cgiargs with
    | .unborn => ⟨r.2, false, stats⟩
    | child => ⟨{ r.2 with written := r.2.written ++ child.sends }, true, stats⟩
  else ⟨r.2, false, stats⟩

/-- What `requestHandle` does once it knows what to answer; the size of a file
is passed as an `int`. -/
def respond (site : Site) (fd : Sink Char) (req : Times) (stats : Stats) :
    Response → Except Undefined Handled
  | .error cause errnum shortmsg longmsg =>
      requestError fd req cause errnum shortmsg longmsg stats
  | .serveStatic filename filesize =>
      if stats.threadStatic < intMax then
        .ok (requestServeStatic site fd req filename ((filesize : Int).bmod (2 ^ 32))
          { stats with threadStatic := stats.threadStatic + 1 })
      else .error .counter
  | .serveDynamic filename cgiargs =>
      if stats.threadDynamic < intMax then
        .ok (requestServeDynamic site fd req filename cgiargs
          { stats with threadDynamic := stats.threadDynamic + 1 })
      else .error .counter

/-- `requestHandle` once the request is read. -/
def answer (site : Site) (fd : Sink Char) (req : Times) (stats : Stats) (method uri : Text) :
    Except Undefined Handled :=
  (requestHandle site.stat method uri).bind (respond site fd req stats)

/-- The page fits its array, and the counter its type. -/
def Response.Fits (stats : Stats) : Response → Prop
  | .error cause errnum shortmsg longmsg =>
      (errorBody cause errnum shortmsg longmsg).length + 1 ≤ maxbuf
  | .serveStatic .. => stats.threadStatic < intMax
  | .serveDynamic .. => stats.threadDynamic < intMax

/-- What is defined under a condition. -/
theorem ite_eq_ok {α : Type} {p : Prop} [Decidable p] {a b : α} {u : Undefined} :
    (if p then .ok a else .error u : Except Undefined α) = .ok b ↔ p ∧ b = a := by
  by_cases hp : p
  · rw [if_pos hp, and_iff_right hp, Except.ok.injEq]
    exact eq_comm
  · rw [if_neg hp]
    exact iff_of_false nofun fun h => hp h.1

theorem respond_fits (site : Site) (fd : Sink Char) (req : Times) (stats : Stats) (r : Response) :
    (∃ o, respond site fd req stats r = .ok o) ↔ r.Fits stats := by
  cases r with
  | error cause errnum shortmsg longmsg => simp [respond, requestError, Response.Fits, ite_eq_ok]
  | serveStatic filename filesize => simp [respond, Response.Fits, ite_eq_ok]
  | serveDynamic filename cgiargs => simp [respond, Response.Fits, ite_eq_ok]

/-- **When the request has an answer**: for a `GET`, the URI is there and the
file's name fits its array, and what is answered fits its own. -/
theorem answer_defined (site : Site) (fd : Sink Char) (req : Times) (stats : Stats)
    (method uri : Text) :
    (∃ o, answer site fd req stats method uri = .ok o) ↔
      (equalsIgnoreCase method "GET".toList → uri ≠ [] ∧ Fits (requestParseURI uri)) ∧
      ∀ r, requestHandle site.stat method uri = .ok r → r.Fits stats := by
  rw [← requestHandle_defined site.stat]
  cases h : requestHandle site.stat method uri with
  | error u => simp [answer, h, Except.bind]
  | ok r => simpa [answer, h, Except.bind] using respond_fits site fd req stats r

/-! ## requestHandle on a connection -/

namespace Wire

/-- `Rio_readlineb(rp, buf, MAXLINE)`: the array afterwards, or `none` if the
call fails, which ends the process. -/
def rioReadlineb (rp : RioT) (buf : Text) : Option (Text × RioT) :=
  let r := Segel.rioReadlineb rp maxline
  if r.1.val < 0 then none else some (r.1.usrbuf ++ buf.drop r.1.usrbuf.length, r.2)

/-- `while (strcmp(buf, "\r\n"))` for at most that many rounds: whether the
process still runs, if the loop ends. -/
def readhdrsLoop : Nat → RioT → Text → Option Bool
  | 0, _, _ => none
  | rounds + 1, rp, buf =>
      if cString buf = crlf then some true
      else
        match rioReadlineb rp buf with
        | none => some false
        | some (buf, rp) => readhdrsLoop rounds rp buf

/-- `requestReadhdrs`. -/
def requestReadhdrs (rounds : Nat) (rp : RioT) (buf : Text) : Option Bool :=
  match rioReadlineb rp buf with
  | none => some false
  | some (buf, rp) => readhdrsLoop rounds rp buf

/-- `requestHandle` on a connection that is read from `source` and written to
`fd`; `buf`, `hdrbuf`, `method` and `uri` are what the arrays hold at first. -/
def requestHandle (site : Site) (rounds : Nat) (rp : RioT) (source : Source Char)
    (buf hdrbuf method uri : Text) (fd : Sink Char) (req : Times) (stats : Stats) :
    Option (Except Undefined Handled) :=
  if stats.threadCount < intMax then
    let stats := stats.begun
    match rioReadlineb (rioReadinitb rp source) buf with
    | none => some (.ok ⟨fd, false, stats⟩)
    | some (buf, rp) =>
        let line := scanned buf method uri
        if equalsIgnoreCase line.1 "GET".toList then
          (requestReadhdrs rounds rp hdrbuf).map fun runs =>
            if runs then answer site fd req stats line.1 line.2 else .ok ⟨fd, false, stats⟩
        else some (answer site fd req stats line.1 line.2)
  else some (.error .counter)

/-! ## What the pieces of the stream do not change -/

theorem cString_terminated (line rest : Text) :
    cString (line ++ '\x00' :: rest) = cString line := by
  induction line with
  | nil => rfl
  | cons c line ih =>
      by_cases hc : c = '\x00'
      · simp [cString, hc]
      · rw [cString, cString, List.cons_append, List.takeWhile_cons_of_pos (by simpa using hc),
          List.takeWhile_cons_of_pos (by simpa using hc)]
        exact congrArg (c :: ·) ih

/-- A line that was read is the next line of the stream. -/
theorem rioReadlineb_some {rp rp' : RioT} {buf buf' line : Text}
    (hline : cString buf = cString line) (h : rioReadlineb rp buf = some (buf', rp')) :
    cString buf' = cString (Server.rioReadlineb rp.unread line).1 ∧
      rp'.unread = (Server.rioReadlineb rp.unread line).2 := by
  rw [rioReadlineb] at h
  split at h
  · cases h
  · rename_i hval
    cases h
    have hread := Call.run_onStream (.readlineb maxline) rp (by
      change (Segel.rioReadlineb rp maxline).1.val ≠ -1
      omega)
    change ((Segel.rioReadlineb rp maxline).1,
      (Segel.rioReadlineb rp maxline).2.unread) = _ at hread
    rw [Call.onStream, Server.rioReadlineb] at *
    by_cases hnil : rp.unread = []
    · rw [if_pos ⟨hnil, by decide⟩, Prod.mk.injEq] at hread
      rw [if_pos hnil, hread.1, hread.2]
      exact ⟨hline, rfl⟩
    · rw [if_neg fun he => hnil he.1, Prod.mk.injEq] at hread
      rw [if_neg hnil, hread.1, hread.2]
      refine ⟨?_, rfl⟩
      rw [List.append_assoc, List.singleton_append, cString_terminated]

theorem rioReadlineb_steady {rp : RioT} (buf : Text) (h : rp.fd.Steady) :
    ∃ buf' rp', rioReadlineb rp buf = some (buf', rp') ∧ rp'.fd.Steady := by
  obtain ⟨hval, hsteady⟩ := readlinebLoop_steady (maxline - 1) 1 Nat.one_pos h
  refine ⟨_, _, if_neg ?_, hsteady⟩
  exact Int.not_lt.mpr hval

/-- Only a failing descriptor ends the process. -/
theorem rioReadlineb_none {rp : RioT} {buf : Text} (h : rioReadlineb rp buf = none) :
    ¬rp.fd.Steady := by
  intro hsteady
  obtain ⟨buf', rp', hsome, -⟩ := rioReadlineb_steady buf hsteady
  cases h.symm.trans hsome

theorem rioReadlineb_keeps {rp rp' : RioT} {buf buf' : Text}
    (h : rioReadlineb rp buf = some (buf', rp')) (hsteady : rp.fd.Steady) : rp'.fd.Steady := by
  obtain ⟨buf'', rp'', hsome, hsteady'⟩ := rioReadlineb_steady buf hsteady
  cases h.symm.trans hsome
  exact hsteady'

theorem readhdrsLoop_eq (rounds : Nat) (rp : RioT) {buf line : Text}
    (hline : cString buf = cString line) :
    readhdrsLoop rounds rp buf = some false ∧ ¬rp.fd.Steady ∨
      readhdrsLoop rounds rp buf =
        (Server.readhdrsLoop rounds rp.unread line).map fun _ => true := by
  induction rounds generalizing rp buf line with
  | zero => exact .inr rfl
  | succ rounds ih =>
      rw [readhdrsLoop, Server.readhdrsLoop, hline]
      by_cases hend : cString line = crlf
      · rw [if_pos hend, if_pos hend]
        exact .inr rfl
      · rw [if_neg hend, if_neg hend]
        cases hread : rioReadlineb rp buf with
        | none => exact .inl ⟨rfl, rioReadlineb_none hread⟩
        | some r =>
            obtain ⟨buf', rp'⟩ := r
            obtain ⟨hline', hunread⟩ := rioReadlineb_some hline hread
            obtain ⟨hfalse, hsteady⟩ | hsome := ih rp' hline'
            · exact .inl ⟨hfalse, fun h => hsteady (rioReadlineb_keeps hread h)⟩
            · rw [← hunread]
              exact .inr hsome

theorem requestReadhdrs_eq (rounds : Nat) (rp : RioT) (buf : Text) :
    requestReadhdrs rounds rp buf = some false ∧ ¬rp.fd.Steady ∨
      requestReadhdrs rounds rp buf =
        (Server.requestReadhdrs rounds rp.unread buf).map fun _ => true := by
  rw [requestReadhdrs, Server.requestReadhdrs]
  cases hread : rioReadlineb rp buf with
  | none => exact .inl ⟨rfl, rioReadlineb_none hread⟩
  | some r =>
      obtain ⟨buf', rp'⟩ := r
      obtain ⟨hline', hunread⟩ := rioReadlineb_some rfl hread
      obtain ⟨hfalse, hsteady⟩ | hsome := readhdrsLoop_eq rounds rp' hline'
      · exact .inl ⟨hfalse, fun h => hsteady (rioReadlineb_keeps hread h)⟩
      · rw [← hunread]
        exact .inr hsome

theorem scanned_congr {buf buf' : Text} (h : cString buf = cString buf') (method uri : Text) :
    scanned buf method uri = scanned buf' method uri := by
  rw [scanned, scanned, h]

end Wire

/-- What `method` and `uri` hold when the request line was read. -/
def requestLine (stream buf method uri : Text) : Text × Text :=
  scanned (rioReadlineb stream buf).1 method uri

section Requests

variable {site : Site} {rounds : Nat} {rp : RioT} {source : Source Char}
  {buf hdrbuf method uri : Text} {fd : Sink Char} {req : Times} {stats : Stats}

/-- The same handler on the whole stream, if no call fails. -/
theorem Wire.requestHandle_eq (site : Site) (rounds : Nat) (rp : RioT) (hdrbuf : Text)
    (fd : Sink Char) (req : Times) {line : Text × Text} (hcount : stats.threadCount < intMax)
    (hline : requestLine source.stream buf method uri = line) :
    Wire.requestHandle site rounds rp source buf hdrbuf method uri fd req stats =
        some (.ok ⟨fd, false, stats.begun⟩) ∧ ¬source.Steady ∨
      Wire.requestHandle site rounds rp source buf hdrbuf method uri fd req stats =
        if equalsIgnoreCase line.1 "GET".toList then
          (Server.requestReadhdrs rounds (Server.rioReadlineb source.stream buf).2 hdrbuf).map
            fun _ => answer site fd req stats.begun line.1 line.2
        else some (answer site fd req stats.begun line.1 line.2) := by
  rw [Wire.requestHandle, if_pos hcount]
  cases hread : Wire.rioReadlineb (rioReadinitb rp source) buf with
  | none => exact .inl ⟨rfl, Wire.rioReadlineb_none hread⟩
  | some r =>
      obtain ⟨buf', rp'⟩ := r
      obtain ⟨hbuf, hunread⟩ := Wire.rioReadlineb_some rfl hread
      rw [unread_rioReadinitb] at hbuf hunread
      rw [requestLine] at hline
      simp only [Wire.scanned_congr hbuf, hline]
      by_cases hget : equalsIgnoreCase line.1 "GET".toList
      · simp only [if_pos hget, ← hunread]
        obtain ⟨hfalse, hnot⟩ | hheaders := Wire.requestReadhdrs_eq rounds rp' hdrbuf
        · exact .inl ⟨by simp [hfalse], fun h => hnot (Wire.rioReadlineb_keeps hread h)⟩
        · rw [hheaders]
          refine .inr ?_
          cases Server.requestReadhdrs rounds rp'.unread hdrbuf <;> rfl
      · simp only [if_neg hget]
        exact .inr trivial

/-- Whatever the descriptor does, a call that ends has answered what the arrays
hold, or a read has failed. -/
theorem Wire.requestHandle_some {line : Text × Text} {o : Except Undefined Handled}
    (hcount : stats.threadCount < intMax)
    (hline : requestLine source.stream buf method uri = line)
    (h : Wire.requestHandle site rounds rp source buf hdrbuf method uri fd req stats = some o) :
    o = answer site fd req stats.begun line.1 line.2 ∨
      ¬source.Steady ∧ o = .ok ⟨fd, false, stats.begun⟩ := by
  obtain ⟨hexit, hnot⟩ | hanswer := Wire.requestHandle_eq site rounds rp hdrbuf fd req hcount hline
  · rw [hexit] at h
    exact .inr ⟨hnot, (Option.some.inj h).symm⟩
  · rw [hanswer] at h
    by_cases hget : equalsIgnoreCase line.1 "GET".toList
    · rw [if_pos hget] at h
      obtain ⟨rest, -, ho⟩ := Option.map_eq_some_iff.mp h
      exact .inl ho.symm
    · rw [if_neg hget] at h
      exact .inl (Option.some.inj h).symm

/-- A call that returns has answered. -/
theorem Wire.requestHandle_alive {o : Handled}
    (h : Wire.requestHandle site rounds rp source buf hdrbuf method uri fd req stats =
      some (.ok o)) (halive : o.alive = true) :
    ∃ r, Server.requestHandle site.stat (requestLine source.stream buf method uri).1
        (requestLine source.stream buf method uri).2 = .ok r ∧
      respond site fd req stats.begun r = .ok o := by
  by_cases hcount : stats.threadCount < intMax
  · obtain hanswer | ⟨-, hexit⟩ := Wire.requestHandle_some hcount rfl h
    · cases hr : Server.requestHandle site.stat (requestLine source.stream buf method uri).1
          (requestLine source.stream buf method uri).2 with
      | error u =>
          rw [answer, hr] at hanswer
          cases hanswer
      | ok r =>
          rw [answer, hr] at hanswer
          exact ⟨r, rfl, hanswer.symm⟩
    · cases hexit
      cases halive
  · rw [Wire.requestHandle, if_neg hcount] at h
    cases h

/-- **A request on the wire**: whatever pieces it comes in, and with whatever
words, the handler ends if the headers do (another method than `GET` is refused
before them), and then it answers what its arrays hold. Only a failing read
ends the process without an answer. There is an answer if the name of the file
and the page fit their arrays and the counters their type. -/
theorem request_answered (site : Site) (rp : RioT) (source : Source Char)
    (buf hdrbuf method uri : Text) (fd : Sink Char) (req : Times) (stats : Stats)
    {line : Text × Text} (hline : requestLine source.stream buf method uri = line)
    (hcount : stats.threadCount < intMax) :
    (∀ rounds o,
      Wire.requestHandle site rounds rp source buf hdrbuf method uri fd req stats = some o →
        o = answer site fd req stats.begun line.1 line.2 ∨
          ¬source.Steady ∧ o = .ok ⟨fd, false, stats.begun⟩) ∧
      (source.Steady →
        ((∃ rounds o,
          Wire.requestHandle site rounds rp source buf hdrbuf method uri fd req stats = some o) ↔
          ¬equalsIgnoreCase line.1 "GET".toList ∨
            Returns (Server.rioReadlineb source.stream buf).2 hdrbuf)) ∧
      ((∃ o, answer site fd req stats.begun line.1 line.2 = .ok o) ↔
        (equalsIgnoreCase line.1 "GET".toList →
          line.2 ≠ [] ∧ Fits (requestParseURI line.2)) ∧
        ∀ r, Server.requestHandle site.stat line.1 line.2 = .ok r → r.Fits stats) := by
  refine ⟨fun rounds o ho => Wire.requestHandle_some hcount hline ho, fun hsteady => ?_,
    answer_defined site fd req stats.begun line.1 line.2⟩
  have hanswer := fun rounds =>
    (Wire.requestHandle_eq site rounds rp hdrbuf fd req hcount hline).resolve_left
      fun h => h.2 hsteady
  by_cases hget : equalsIgnoreCase line.1 "GET".toList
  · simp only [hanswer, if_pos hget, Option.map_eq_some_iff]
    rw [or_iff_right (not_not.mpr hget)]
    constructor
    · rintro ⟨rounds, o, rest, hrest, -⟩
      exact ⟨rounds, rest, hrest⟩
    · rintro ⟨rounds, rest, hrest⟩
      exact ⟨rounds, _, rest, hrest, rfl⟩
  · simp only [hanswer, if_neg hget]
    exact iff_of_true ⟨0, _, rfl⟩ (.inl hget)

end Requests

/-- A server without files. -/
def noSite : Site := ⟨fun _ => none, fun _ => none, fun _ _ => .exits [], nofun⟩

/-- Another method, in pieces of one byte, with an interruption. -/
def putInPieces : Source Char :=
  ⟨"PUT /x HTTP/1.0\r\n".toList, [.moves 1, .fails .eintr, .moves 1]⟩

/-- A request line of one word. -/
def putAlone : Source Char := ⟨"PUT\n".toList, []⟩

theorem request_answered_put : ∃ rounds o,
    Wire.requestHandle noSite rounds rioZero putAlone [] [] [] "/y".toList ⟨[], [], .other⟩
      ⟨⟨5, 0⟩, ⟨5, 7⟩⟩ (initStats 3) = some o ∧
    o = answer noSite ⟨[], [], .other⟩ ⟨⟨5, 0⟩, ⟨5, 7⟩⟩ (initStats 3).begun "PUT".toList
      "/y".toList := by
  have hline : requestLine putAlone.stream [] [] "/y".toList = ("PUT".toList, "/y".toList) := by
    decide +kernel
  obtain ⟨hanswers, hends, -⟩ := request_answered noSite rioZero putAlone [] [] [] "/y".toList
    ⟨[], [], .other⟩ ⟨⟨5, 0⟩, ⟨5, 7⟩⟩ (initStats 3) hline (by decide)
  obtain ⟨rounds, o, ho⟩ := (hends (by decide)).mpr (.inl (by decide))
  refine ⟨rounds, o, ho, (hanswers rounds o ho).resolve_right fun h => h.1 (by decide)⟩

end OsAllHw.Server
