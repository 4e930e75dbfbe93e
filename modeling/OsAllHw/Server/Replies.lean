import OsAllHw.Server.Response

/-!
# Replies as messages

What leaves on the connection is one message: a head of fields, an empty line
and a body of the length that the head gives. The handlers that build it are
compared with the message they are meant to build.
-/

namespace OsAllHw.Server

open Lib Segel

/-! ## Messages -/

/-- A head, as names and values, and a body. -/
structure Reply where
  names : List Text
  values : List Text
  body : Text
  deriving DecidableEq

def Reply.head (m : Reply) : List Text := List.zipWith (· ++ ·) m.names m.values

def statNames : List Text :=
  ["Stat-Req-Arrival:: ".toList, "Stat-Req-Dispatch:: ".toList, "Stat-Thread-Id:: ".toList,
   "Stat-Thread-Count:: ".toList, "Stat-Thread-Static:: ".toList, "Stat-Thread-Dynamic:: ".toList]

def statValues (req : Times) (stats : Stats) : List Text :=
  [printTimeval req.arrivalTime, printTimeval (interval req), printD stats.threadId,
   printD stats.threadCount, printD stats.threadStatic, printD stats.threadDynamic]

def errorNames : List Text :=
  "HTTP/1.0 ".toList :: "Content-Type: ".toList :: "Content-Length: ".toList :: statNames

def staticNames : List Text :=
  "HTTP/1.0 ".toList :: "Server: ".toList :: "Content-Length: ".toList ::
    "Content-Type: ".toList :: statNames

def dynamicNames : List Text := "HTTP/1.0 ".toList :: "Server: ".toList :: statNames

/-- The message of `requestError`. -/
def errorReply (req : Times) (stats : Stats) (cause errnum shortmsg longmsg : Text) : Reply :=
  let body := errorBody cause errnum shortmsg longmsg
  ⟨errorNames,
   (errnum ++ ' ' :: shortmsg) :: "text/html".toList :: printD body.length :: statValues req stats,
   body⟩

/-- The message of `requestServeStatic`. -/
def staticReply (req : Times) (stats : Stats) (filename file : Text) : Reply :=
  ⟨staticNames,
   "200 OK".toList :: "OS-HW3 Web Server".toList :: printD file.length ::
     requestGetFiletype filename :: statValues req stats,
   file⟩

/-- The head of `requestServeDynamic`, and what the program adds to it. -/
def dynamicHead (req : Times) (stats : Stats) : Reply :=
  ⟨dynamicNames,
   "200 OK".toList :: "OS-HW3 Web Server".toList :: statValues req stats, []⟩

theorem statLines_eq (req : Times) (stats : Stats) :
    statLines req stats = List.zipWith (· ++ ·) statNames (statValues req stats) := rfl

/-! ## The handlers write them -/

section Handlers

variable (fd : Sink Char) (req : Times) (stats : Stats)

theorem requestError_eq (cause errnum shortmsg longmsg : Text) :
    ∃ bufs, bufs.flatten = renderMessage '\r' '\n'
        (errorReply req stats cause errnum shortmsg longmsg).head
        (errorReply req stats cause errnum shortmsg longmsg).body ∧
      requestError fd req cause errnum shortmsg longmsg stats =
        if (errorBody cause errnum shortmsg longmsg).length + 1 ≤ maxbuf then
          .ok ⟨(writeAll bufs fd).2, (writeAll bufs fd).1, stats⟩
        else .error .body := by
  have htype : "Content-Type: text/html".toList =
      "Content-Type: ".toList ++ "text/html".toList := by decide
  refine ⟨_, ?_, rfl⟩
  simp only [renderMessage, renderLines, Reply.head, errorReply, errorNames, statLines_eq,
    List.flatten_cons, List.flatten_nil, List.zipWith_cons_cons, List.flatMap_cons, crlfLine,
    crlf, List.append_assoc, List.append_nil, htype]
  rfl

theorem requestServeStatic_eq {site : Site} {filename file : Text} {filesize : Int}
    (hopen : site.openFile filename = some file) (hpos : 0 < filesize)
    (hlen : filesize.toNat ≤ file.length) :
    ∃ bufs, bufs.flatten = renderMessage '\r' '\n'
        (staticReply req stats filename (file.take filesize.toNat)).head
        (file.take filesize.toNat) ∧
      requestServeStatic site fd req filename filesize stats =
        ⟨(writeAll bufs fd).2, (writeAll bufs fd).1, stats⟩ := by
  have hserver : "Server: OS-HW3 Web Server".toList =
      "Server: ".toList ++ "OS-HW3 Web Server".toList := by decide
  have hok : "HTTP/1.0 200 OK".toList = "HTTP/1.0 ".toList ++ "200 OK".toList := by decide
  have htake : (file.take filesize.toNat).length = filesize.toNat := by
    rw [List.length_take, Nat.min_eq_left hlen]
  simp only [requestServeStatic, hopen, if_neg (Int.not_le.mpr hpos)]
  refine ⟨_, ?_, rfl⟩
  simp only [renderMessage, renderLines, Reply.head, staticReply, staticNames, statLines_eq,
    List.flatten_cons, List.flatten_nil, List.zipWith_cons_cons, List.flatMap_cons, crlfLine,
    crlf, List.append_assoc, List.append_nil, hserver, hok, htake]
  rfl

theorem requestServeDynamic_eq (site : Site) (filename cgiargs : Text) :
    ∃ bufs, bufs.flatten = renderLines '\r' '\n' (dynamicHead req stats).head ∧
      requestServeDynamic site fd req filename cgiargs stats =
        if (writeAll bufs fd).1 then
          match site.cgi filename cgiargs with
          | .unborn => ⟨(writeAll bufs fd).2, false, stats⟩
          | child =>
              ⟨{ (writeAll bufs fd).2 with written := (writeAll bufs fd).2.written ++ child.sends },
                true, stats⟩
        else ⟨(writeAll bufs fd).2, false, stats⟩ := by
  have hserver : "Server: OS-HW3 Web Server".toList =
      "Server: ".toList ++ "OS-HW3 Web Server".toList := by decide
  have hok : "HTTP/1.0 200 OK".toList = "HTTP/1.0 ".toList ++ "200 OK".toList := by decide
  refine ⟨_, ?_, rfl⟩
  simp only [renderLines, Reply.head, dynamicHead, dynamicNames, statLines_eq, List.flatten_cons,
    List.flatten_nil, List.zipWith_cons_cons, List.flatMap_cons, crlfLine,
    crlf, List.append_assoc, List.append_nil, hserver, hok]
  rfl

theorem requestServeStatic_stats (site : Site) (filename : Text) (filesize : Int) :
    (requestServeStatic site fd req filename filesize stats).stats = stats := by
  rw [requestServeStatic]
  split
  · rfl
  · split <;> rfl

theorem requestServeDynamic_stats (site : Site) (filename cgiargs : Text) :
    (requestServeDynamic site fd req filename cgiargs stats).stats = stats := by
  obtain ⟨bufs, -, heq⟩ := requestServeDynamic_eq fd req stats site filename cgiargs
  rw [heq]
  split
  · split <;> rfl
  · rfl

/-- Only a file that is served and a program that is run are counted. -/
theorem respond_stats {site : Site} {r : Response} {o : Handled}
    (h : respond site fd req stats r = .ok o) :
    o.stats =
      match r with
      | .error .. => stats
      | .serveStatic .. => { stats with threadStatic := stats.threadStatic + 1 }
      | .serveDynamic .. => { stats with threadDynamic := stats.threadDynamic + 1 } := by
  cases r with
  | error cause errnum shortmsg longmsg =>
      obtain ⟨bufs, -, heq⟩ := requestError_eq fd req stats cause errnum shortmsg longmsg
      rw [respond, heq] at h
      obtain ⟨-, rfl⟩ := ite_eq_ok.mp h
      rfl
  | serveStatic filename filesize =>
      obtain ⟨-, rfl⟩ := ite_eq_ok.mp h
      exact requestServeStatic_stats fd req _ site filename _
  | serveDynamic filename cgiargs =>
      obtain ⟨-, rfl⟩ := ite_eq_ok.mp h
      exact requestServeDynamic_stats fd req _ site filename cgiargs

end Handlers

/-! ## The heads -/

/-- The first line of a reply. -/
def Response.status : Response → Text
  | .error _ errnum shortmsg _ => errnum ++ ' ' :: shortmsg
  | _ => "200 OK".toList

/-- Only these are answered. -/
theorem status_cases {stat : Text → Option Stat} {method uri : Text} {r : Response}
    (h : requestHandle stat method uri = .ok r) :
    r.status = "200 OK".toList ∨ r.status = "403 Forbidden".toList ∨
      r.status = "404 Not found".toList ∨ r.status = "501 Not Implemented".toList := by
  have h403 : "403".toList ++ ' ' :: "Forbidden".toList = "403 Forbidden".toList := by decide
  have h404 : "404".toList ++ ' ' :: "Not found".toList = "404 Not found".toList := by decide
  have h501 : "501".toList ++ ' ' :: "Not Implemented".toList = "501 Not Implemented".toList := by
    decide
  cases requestHandle_answers h with
  | notImplemented hmethod => exact .inr (.inr (.inr h501))
  | notFound hstat => exact .inr (.inr (.inl h404))
  | forbidden longmsg => exact .inr (.inl h403)
  | static hstat => exact .inl rfl
  | dynamic => exact .inl rfl

theorem status_plain {stat : Text → Option Stat} {method uri : Text} {r : Response}
    (h : requestHandle stat method uri = .ok r) : '\n' ∉ r.status := by
  obtain h | h | h | h := status_cases h
  all_goals
    rw [h]
    decide

/-- A file that is served is there, and it has the size that was found. -/
theorem serveStatic_stat {stat : Text → Option Stat} {method uri filename : Text} {size : Nat}
    (h : requestHandle stat method uri = .ok (.serveStatic filename size)) :
    ∃ sbuf, stat filename = some sbuf ∧ sbuf.size = size := by
  cases requestHandle_answers h with
  | static hstat => exact ⟨_, hstat, rfl⟩

theorem printD_plain (n : Nat) : '\n' ∉ printD n := fun h =>
  absurd (Nat.isDigit_of_mem_toDigits (by decide) le_rfl h) (by decide)

theorem printTimeval_plain (t : Timeval) : '\n' ∉ printTimeval t := by
  intro h
  obtain h | h := List.mem_append.mp h
  · exact absurd (Nat.isDigit_of_mem_toDigits (by decide) le_rfl h) (by decide)
  · obtain h | h := List.mem_cons.mp h
    · exact absurd h (by decide)
    · obtain h | h := List.mem_append.mp h
      · exact absurd (List.eq_of_mem_replicate h) (by decide)
      · exact absurd (Nat.isDigit_of_mem_toDigits (by decide) le_rfl h) (by decide)

theorem statValues_plain (req : Times) (stats : Stats) : ∀ v ∈ statValues req stats, '\n' ∉ v := by
  intro v hv
  simp only [statValues, List.mem_cons, List.not_mem_nil, or_false] at hv
  obtain rfl | rfl | rfl | rfl | rfl | rfl := hv
  · exact printTimeval_plain _
  · exact printTimeval_plain _
  all_goals exact printD_plain _

theorem filetype_plain (filename : Text) : '\n' ∉ requestGetFiletype filename := by
  unfold requestGetFiletype
  split
  · decide
  · split
    · decide
    · split <;> decide

theorem errorNames_pairwise : errorNames.Pairwise fun a b => ¬Clash a b := by decide +kernel

theorem staticNames_pairwise : staticNames.Pairwise fun a b => ¬Clash a b := by decide +kernel

theorem dynamicNames_pairwise : dynamicNames.Pairwise fun a b => ¬Clash a b := by decide +kernel

theorem errorNames_lines : ∀ n ∈ errorNames, HeadLine '\n' n := by decide +kernel

theorem staticNames_lines : ∀ n ∈ staticNames, HeadLine '\n' n := by decide +kernel

theorem dynamicNames_lines : ∀ n ∈ dynamicNames, HeadLine '\n' n := by decide +kernel

/-! ## What a client reads -/

/-- A head that says what became of a request: when it came, how long it
waited, and the counters of the thread. -/
structure Describes (head : List Text) (status : Text) (req : Times) (stats : Stats) : Prop where
  status : field "HTTP/1.0 ".toList head = some status
  arrival : field "Stat-Req-Arrival:: ".toList head = some (printTimeval req.arrivalTime)
  dispatch : field "Stat-Req-Dispatch:: ".toList head = some (printTimeval (interval req))
  threadId : (field "Stat-Thread-Id:: ".toList head).bind numeral = some stats.threadId
  threadCount : (field "Stat-Thread-Count:: ".toList head).bind numeral = some stats.threadCount
  threadStatic : (field "Stat-Thread-Static:: ".toList head).bind numeral = some stats.threadStatic
  threadDynamic :
    (field "Stat-Thread-Dynamic:: ".toList head).bind numeral = some stats.threadDynamic

/-- The heads end with the statistics, after some fields of their own. -/
theorem describes (names values more : List Text) {status : Text} {req : Times} {stats : Stats}
    (hlen : names.length = values.length)
    (hpairwise : ("HTTP/1.0 ".toList :: names ++ statNames).Pairwise fun a b => ¬Clash a b) :
    Describes (List.zipWith (· ++ ·) ("HTTP/1.0 ".toList :: names ++ statNames)
      (status :: values ++ statValues req stats) ++ more) status req stats := by
  have hstat {i : Nat} {name value : Text} (hname : statNames[i]? = some name)
      (hvalue : (statValues req stats)[i]? = some value) :
      field name (List.zipWith (· ++ ·) ("HTTP/1.0 ".toList :: names ++ statNames)
        (status :: values ++ statValues req stats) ++ more) = some value := by
    refine field_zipWith _ _ (names.length + 1 + i) hpairwise ?_ ?_
    · rw [List.getElem?_append_right (by rw [List.length_cons]; omega), List.length_cons,
        Nat.add_sub_cancel_left, hname]
    · rw [List.getElem?_append_right (by rw [List.length_cons]; omega), List.length_cons, hlen,
        Nat.add_sub_cancel_left, hvalue]
  have hnumeral {i n : Nat} {name : Text} (hname : statNames[i]? = some name)
      (hvalue : (statValues req stats)[i]? = some (printD n)) :
      (field name (List.zipWith (· ++ ·) ("HTTP/1.0 ".toList :: names ++ statNames)
        (status :: values ++ statValues req stats) ++ more)).bind numeral = some n := by
    rw [hstat hname hvalue]
    exact numeral_toDigits n
  exact
    { status := field_zipWith _ _ 0 hpairwise rfl rfl
      arrival := hstat (i := 0) rfl rfl
      dispatch := hstat (i := 1) rfl rfl
      threadId := hnumeral (i := 2) rfl rfl
      threadCount := hnumeral (i := 3) rfl rfl
      threadStatic := hnumeral (i := 4) rfl rfl
      threadDynamic := hnumeral (i := 5) rfl rfl }

/-- A program that ends the head it was given. -/
def Child.Completes (child : Child) : Prop :=
  ∃ lines body, (∀ line ∈ lines, HeadLine '\n' line) ∧
    child.sends = renderMessage '\r' '\n' lines body

/-- Whatever program this response is made by ends the head. -/
def Response.Completed (site : Site) (r : Response) : Prop :=
  ∀ filename cgiargs, r = .serveDynamic filename cgiargs → (site.cgi filename cgiargs).Completes

/-- An `int` that was a positive size is no larger than it. -/
theorem bmod_le (size : Nat) (h : 0 < (size : Int).bmod (2 ^ 32)) :
    ((size : Int).bmod (2 ^ 32)).toNat ≤ size ∧
      (((size : Int).bmod (2 ^ 32)).toNat = size ↔ size < 2 ^ 31) := by
  have hbmod := Int.bmod_def (size : Int) (2 ^ 32)
  rw [hbmod] at h ⊢
  split at h
  · rename_i hlt
    rw [if_pos hlt] at *
    omega
  · rename_i hlt
    rw [if_neg hlt] at *
    omega

/-- Bytes that were all written, if the process goes on. -/
theorem written_of_alive {bufs : List Text} {fd : Sink Char} (h : (writeAll bufs fd).1 = true) :
    (writeAll bufs fd).2.written = fd.written ++ bufs.flatten := by
  obtain ⟨front, back, hsplit, hwritten, hend⟩ := (writeAll_in_order bufs fd).1
  rw [hwritten, hsplit, hend.mp h, List.append_nil]

/-- A head of fields with values that stand on one line is read back. -/
theorem readMessage_fields {names values : List Text}
    (hnames : ∀ n ∈ names, HeadLine '\n' n) (hvalues : ∀ v ∈ values, '\n' ∉ v)
    (lines : List Text) (hlines : ∀ line ∈ lines, HeadLine '\n' line) (body : Text) :
    readMessage '\r' '\n'
        (renderMessage '\r' '\n' (List.zipWith (· ++ ·) names values ++ lines) body) =
      some (List.zipWith (· ++ ·) names values ++ lines, body) := by
  refine readMessage_render (by decide) (fun line hline => ?_) body
  obtain hline | hline := List.mem_append.mp hline
  · exact headLine_zipWith hnames hvalues line hline
  · exact hlines line hline

section Message

variable {site : Site} {fd : Sink Char} {req : Times} {stats : Stats} {filename : Text}
  {o : Handled}

theorem error_message {cause errnum shortmsg longmsg : Text}
    (hplain : '\n' ∉ errnum ++ ' ' :: shortmsg)
    (h : requestError fd req cause errnum shortmsg longmsg stats = .ok o)
    (halive : o.alive = true) :
    ∃ sent head body, o.fd.written = fd.written ++ sent ∧
      readMessage '\r' '\n' sent = some (head, body) ∧
      Describes head (errnum ++ ' ' :: shortmsg) req o.stats ∧
      (field "Content-Length: ".toList head).bind numeral = some body.length := by
  obtain ⟨bufs, hflat, heq⟩ := requestError_eq fd req stats cause errnum shortmsg longmsg
  rw [heq] at h
  obtain ⟨-, rfl⟩ := ite_eq_ok.mp h
  have hvalues : ∀ v ∈ (errorReply req stats cause errnum shortmsg longmsg).values, '\n' ∉ v := by
    refine List.forall_mem_cons.mpr ⟨hplain, List.forall_mem_cons.mpr ⟨by decide, ?_⟩⟩
    exact List.forall_mem_cons.mpr ⟨printD_plain _, statValues_plain req stats⟩
  have hread := readMessage_fields errorNames_lines hvalues [] nofun
    (errorBody cause errnum shortmsg longmsg)
  rw [List.append_nil] at hread
  refine ⟨_, _, _, written_of_alive halive, hflat ▸ hread, ?_, ?_⟩
  · exact List.append_nil (List.zipWith _ _ _) ▸ describes
      ["Content-Type: ".toList, "Content-Length: ".toList] [_, _] [] rfl errorNames_pairwise
  · have hlength := field_zipWith (errorReply req stats cause errnum shortmsg longmsg).values [] 2
      errorNames_pairwise rfl rfl
    rw [List.append_nil] at hlength
    rw [hlength]
    exact numeral_toDigits _

theorem static_message {file : Text} {filesize : Int}
    (hopen : site.openFile filename = some file) (hpos : 0 < filesize)
    (hlen : filesize.toNat ≤ file.length)
    (halive : (requestServeStatic site fd req filename filesize stats).alive = true) :
    ∃ sent head,
      (requestServeStatic site fd req filename filesize stats).fd.written = fd.written ++ sent ∧
      readMessage '\r' '\n' sent = some (head, file.take filesize.toNat) ∧
      Describes head "200 OK".toList req stats ∧
      (field "Content-Length: ".toList head).bind numeral =
        some (file.take filesize.toNat).length := by
  obtain ⟨bufs, hflat, heq⟩ := requestServeStatic_eq fd req stats hopen hpos hlen
  rw [heq] at halive ⊢
  have hvalues : ∀ v ∈ (staticReply req stats filename (file.take filesize.toNat)).values,
      '\n' ∉ v := by
    refine List.forall_mem_cons.mpr ⟨by decide, List.forall_mem_cons.mpr ⟨by decide, ?_⟩⟩
    refine List.forall_mem_cons.mpr ⟨printD_plain _, ?_⟩
    exact List.forall_mem_cons.mpr ⟨filetype_plain filename, statValues_plain req stats⟩
  have hread := readMessage_fields staticNames_lines hvalues [] nofun
    (file.take filesize.toNat)
  rw [List.append_nil] at hread
  refine ⟨_, _, written_of_alive halive, hflat ▸ hread, ?_, ?_⟩
  · exact List.append_nil (List.zipWith _ _ _) ▸ describes
      ["Server: ".toList, "Content-Length: ".toList, "Content-Type: ".toList] [_, _, _] [] rfl
      staticNames_pairwise
  · have hlength := field_zipWith (staticReply req stats filename (file.take filesize.toNat)).values
      [] 2 staticNames_pairwise rfl rfl
    rw [List.append_nil] at hlength
    rw [hlength]
    exact numeral_toDigits _

/-- A program's reply: the head that was begun, and what the child leaves. -/
theorem dynamic_sent {cgiargs : Text}
    (halive : (requestServeDynamic site fd req filename cgiargs stats).alive = true) :
    (requestServeDynamic site fd req filename cgiargs stats).fd.written =
      fd.written ++ (renderLines '\r' '\n' (dynamicHead req stats).head ++
        (site.cgi filename cgiargs).sends) := by
  obtain ⟨bufs, hflat, heq⟩ := requestServeDynamic_eq fd req stats site filename cgiargs
  rw [heq] at halive ⊢
  cases hok : (writeAll bufs fd).1 with
  | false =>
      rw [hok] at halive
      cases halive
  | true =>
      rw [hok] at halive
      have hwritten : (writeAll bufs fd).2.written ++ (site.cgi filename cgiargs).sends =
          fd.written ++ (renderLines '\r' '\n' (dynamicHead req stats).head ++
            (site.cgi filename cgiargs).sends) := by
        rw [written_of_alive hok, hflat, List.append_assoc]
      cases hcgi : site.cgi filename cgiargs with
      | unborn =>
          rw [hcgi] at halive
          cases halive
      | exits flushed =>
          rw [hcgi] at hwritten
          exact hwritten
      | runs output =>
          rw [hcgi] at hwritten
          exact hwritten

/-- If it completes the head, this is a message. -/
theorem dynamic_message (req : Times) (stats : Stats) {text : Text}
    (htext : ∃ lines body, (∀ line ∈ lines, HeadLine '\n' line) ∧
      text = renderMessage '\r' '\n' lines body) :
    ∃ head body, readMessage '\r' '\n'
        (renderLines '\r' '\n' (dynamicHead req stats).head ++ text) = some (head, body) ∧
      Describes head "200 OK".toList req stats := by
  obtain ⟨lines, body, hlines, rfl⟩ := htext
  have hvalues : ∀ v ∈ (dynamicHead req stats).values, '\n' ∉ v :=
    List.forall_mem_cons.mpr ⟨by decide, List.forall_mem_cons.mpr
      ⟨by decide, statValues_plain req stats⟩⟩
  have hread := readMessage_fields dynamicNames_lines hvalues lines hlines body
  refine ⟨(dynamicHead req stats).head ++ lines, body, ?_, ?_⟩
  · rw [renderLines_append]
    exact hread
  · exact describes ["Server: ".toList] [_] lines rfl dynamicNames_pairwise

end Message

section Replies

variable {site : Site} {r : Response} {fd : Sink Char} {req : Times} {stats : Stats} {o : Handled}

/-- The text of a program's reply. -/
theorem respond_dynamic {filename cgiargs : Text}
    (h : respond site fd req stats (.serveDynamic filename cgiargs) = .ok o)
    (halive : o.alive = true) :
    o.fd.written = fd.written ++ (renderLines '\r' '\n' (dynamicHead req o.stats).head ++
      (site.cgi filename cgiargs).sends) := by
  have hstats := respond_stats fd req stats h
  obtain ⟨-, rfl⟩ := ite_eq_ok.mp h
  rw [hstats]
  exact dynamic_sent halive

/-- What is sent for each response. -/
theorem respond_message {method uri : Text} (hcompleted : r.Completed site)
    (hr : requestHandle site.stat method uri = .ok r)
    (h : respond site fd req stats r = .ok o) (halive : o.alive = true) :
    ∃ sent head body, o.fd.written = fd.written ++ sent ∧
      readMessage '\r' '\n' sent = some (head, body) ∧
      Describes head r.status req o.stats ∧
      ((∀ filename cgiargs, r ≠ .serveDynamic filename cgiargs) →
        (field "Content-Length: ".toList head).bind numeral = some body.length) ∧
      ∀ filename size, r = .serveStatic filename size →
        ∃ file, site.openFile filename = some file ∧ body <+: file ∧
          (body = file ↔ size < 2 ^ 31) := by
  cases r with
  | error cause errnum shortmsg longmsg =>
      obtain ⟨sent, head, body, hsent, hread, hdescribes, hlength⟩ :=
        error_message (status_plain hr) h halive
      exact ⟨sent, head, body, hsent, hread, hdescribes, fun _ => hlength, nofun⟩
  | serveDynamic filename cgiargs =>
      obtain ⟨head, body, hread, hdescribes⟩ :=
        dynamic_message req o.stats (hcompleted _ _ rfl)
      exact ⟨_, head, body, respond_dynamic h halive, hread, hdescribes,
        fun h => absurd rfl (h _ _), nofun⟩
  | serveStatic filename size =>
      obtain ⟨-, rfl⟩ := ite_eq_ok.mp h
      obtain ⟨sbuf, hstat, hsize⟩ := serveStatic_stat hr
      have hbmod := bmod_le size
      generalize (size : Int).bmod (2 ^ 32) = filesize at halive hbmod ⊢
      cases hopen : site.openFile filename with
      | none =>
          rw [requestServeStatic, hopen] at halive
          cases halive
      | some file =>
          have hfile : file.length = size := (site.sizes _ _ _ hstat hopen).trans hsize
          have hpos : 0 < filesize := by
            by_contra hneg
            rw [requestServeStatic, hopen] at halive
            simp only [if_pos (Int.not_lt.mp hneg)] at halive
            cases halive
          obtain ⟨hle, hwhole⟩ := hbmod hpos
          obtain ⟨sent, head, hsent, hread, hdescribes, hlength⟩ :=
            static_message hopen hpos (hfile ▸ hle) halive
          rw [requestServeStatic_stats]
          refine ⟨sent, head, _, hsent, hread, hdescribes, fun _ => hlength, ?_⟩
          intro filename' size' hsame
          cases hsame
          refine ⟨file, hopen, List.take_prefix _ _, ?_⟩
          rw [← hwhole, List.take_eq_self_iff, hfile]
          omega

/-- **Every reply is one message**: if the handler returns, what it wrote is a
head that gives the status, the counters and the times, and a body of the
length that the head gives, which for a file is what an `int` leaves of its
size. A program is given the head without its end, and has to end it. -/
theorem reply_is_message {rounds : Nat} {rp : RioT} {source : Source Char}
    {buf hdrbuf method uri : Text} {answers : List Answer} {errno : Errno}
    (h : Wire.requestHandle site rounds rp source buf hdrbuf method uri ⟨[], answers, errno⟩ req
      stats = some (.ok o))
    (halive : o.alive = true) :
    ∃ r, requestHandle site.stat (requestLine source.stream buf method uri).1
        (requestLine source.stream buf method uri).2 = .ok r ∧
      (∀ filename cgiargs, r = .serveDynamic filename cgiargs →
        o.fd.written = renderLines '\r' '\n' (dynamicHead req o.stats).head ++
          (site.cgi filename cgiargs).sends) ∧
      (r.Completed site → ∃ head body, readMessage '\r' '\n' o.fd.written = some (head, body) ∧
        Describes head r.status req o.stats ∧
        ((∀ filename cgiargs, r ≠ .serveDynamic filename cgiargs) →
          (field "Content-Length: ".toList head).bind numeral = some body.length) ∧
        ∀ filename size, r = .serveStatic filename size →
          ∃ file, site.openFile filename = some file ∧ body <+: file ∧
            (body = file ↔ size < 2 ^ 31)) := by
  obtain ⟨r, hr, hrespond⟩ := Wire.requestHandle_alive h halive
  refine ⟨r, hr, ?_, fun hcompleted => ?_⟩
  · rintro filename cgiargs rfl
    exact respond_dynamic hrespond halive
  · obtain ⟨sent, head, body, hsent, hread, hdescribes, hrest⟩ :=
      respond_message hcompleted hr hrespond halive
    rw [List.nil_append] at hsent
    exact ⟨head, body, hsent ▸ hread, hdescribes, hrest⟩

end Replies

theorem reply_is_message_put : ∃ o,
    Wire.requestHandle noSite 0 rioZero putInPieces [] [] [] [] ⟨[], [.moves 3], .other⟩
      ⟨⟨5, 0⟩, ⟨5, 7⟩⟩ (initStats 3) = some (.ok o) ∧
    ∃ head body, readMessage '\r' '\n' o.fd.written = some (head, body) := by
  obtain ⟨o, ho, halive⟩ : ∃ o, (Wire.requestHandle noSite 0 rioZero putInPieces [] [] [] []
      ⟨[], [.moves 3], .other⟩ ⟨⟨5, 0⟩, ⟨5, 7⟩⟩ (initStats 3)).bind Except.toOption = some o ∧
      o.alive = true := (Option.any_eq_true ..).mp (by decide +kernel)
  have hrun : Wire.requestHandle noSite 0 rioZero putInPieces [] [] [] []
      ⟨[], [.moves 3], .other⟩ ⟨⟨5, 0⟩, ⟨5, 7⟩⟩ (initStats 3) = some (.ok o) := by
    obtain ⟨e, he, hok⟩ := Option.bind_eq_some_iff.mp ho
    cases e with
    | error u => cases hok
    | ok o' =>
        cases hok
        exact he
  obtain ⟨r, hr, -, hmessage⟩ := reply_is_message hrun halive
  have hcompleted : r.Completed noSite := by
    rintro filename cgiargs rfl
    have hline : (requestLine putInPieces.stream [] [] []).1 = "PUT".toList := by decide +kernel
    rw [hline] at hr
    cases hr
  obtain ⟨head, body, hread, -⟩ := hmessage hcompleted
  exact ⟨o, hrun, head, body, hread⟩

/-- **What ends the server** on a connection that takes what it is given: a
file that cannot be opened, or whose size is no positive `int`, and a child
that cannot be made. A program that cannot be executed ends its child only. -/
theorem reply_ends_process {site : Site} {fd : Sink Char} {req : Times} {stats : Stats}
    {r : Response} {o : Handled} (h : respond site fd req stats r = .ok o) (hfd : fd.Willing) :
    o.alive = false ↔
      (∃ filename size, r = .serveStatic filename size ∧
        (site.openFile filename = none ∨ (size : Int).bmod (2 ^ 32) ≤ 0)) ∨
      ∃ filename cgiargs, r = .serveDynamic filename cgiargs ∧
        site.cgi filename cgiargs = .unborn := by
  have hall := fun bufs => (writeAll_in_order bufs fd).2 hfd
  cases r with
  | error cause errnum shortmsg longmsg =>
      obtain ⟨bufs, -, heq⟩ := requestError_eq fd req stats cause errnum shortmsg longmsg
      rw [respond, heq] at h
      obtain ⟨-, rfl⟩ := ite_eq_ok.mp h
      simp [hall]
  | serveStatic filename size =>
      have hend : o.alive = false ↔
          site.openFile filename = none ∨ (size : Int).bmod (2 ^ 32) ≤ 0 := by
        obtain ⟨-, rfl⟩ := ite_eq_ok.mp h
        generalize (size : Int).bmod (2 ^ 32) = filesize
        rw [requestServeStatic]
        cases site.openFile filename with
        | none => simp
        | some file =>
            by_cases hneg : filesize ≤ 0
            · simp [hneg]
            · simp [hneg, hall]
      rw [hend]
      constructor
      · exact fun h => .inl ⟨filename, size, rfl, h⟩
      · rintro (⟨filename', size', hsame, h⟩ | ⟨filename', cgiargs, hsame, -⟩)
        · cases hsame
          exact h
        · cases hsame
  | serveDynamic filename cgiargs =>
      have hend : o.alive = false ↔ site.cgi filename cgiargs = .unborn := by
        obtain ⟨-, rfl⟩ := ite_eq_ok.mp h
        obtain ⟨bufs, -, heq⟩ := requestServeDynamic_eq fd req
          { stats with threadDynamic := stats.threadDynamic + 1 } site filename cgiargs
        rw [heq, hall, if_pos rfl]
        cases site.cgi filename cgiargs with
        | unborn => simp
        | exits flushed => simp
        | runs output => simp
      rw [hend]
      constructor
      · exact fun h => .inr ⟨filename, cgiargs, rfl, h⟩
      · rintro (⟨filename', size', hsame, -⟩ | ⟨filename', cgiargs', hsame, h⟩)
        · cases hsame
        · cases hsame
          exact h

/-- An empty file, and a program that cannot be executed. -/
def emptyFile : Site := ⟨fun _ => none, fun _ => some [], fun _ _ => .exits [], nofun⟩

theorem reply_ends_process_empty :
    (∃ o, respond emptyFile ⟨[], [], .other⟩ ⟨⟨5, 0⟩, ⟨5, 7⟩⟩ (initStats 0)
      (.serveStatic "./public/x".toList 0) = .ok o ∧ o.alive = false) ∧
    ∃ o, respond emptyFile ⟨[], [], .other⟩ ⟨⟨5, 0⟩, ⟨5, 7⟩⟩ (initStats 0)
      (.serveDynamic "./public/x.cgi".toList []) = .ok o ∧ o.alive ≠ false := by
  constructor
  · obtain ⟨o, ho⟩ := (respond_fits emptyFile ⟨[], [], .other⟩ ⟨⟨5, 0⟩, ⟨5, 7⟩⟩ (initStats 0)
      (.serveStatic "./public/x".toList 0)).mpr (show 0 < intMax by decide)
    exact ⟨o, ho, (reply_ends_process ho (by decide)).mpr (.inl ⟨_, _, rfl, .inr (by decide)⟩)⟩
  · obtain ⟨o, ho⟩ := (respond_fits emptyFile ⟨[], [], .other⟩ ⟨⟨5, 0⟩, ⟨5, 7⟩⟩ (initStats 0)
      (.serveDynamic "./public/x.cgi".toList [])).mpr (show 0 < intMax by decide)
    refine ⟨o, ho, fun hend => ?_⟩
    obtain ⟨_, _, hsame, -⟩ | ⟨_, _, -, hunborn⟩ :=
      (reply_ends_process ho (by decide)).mp hend
    · cases hsame
    · cases hunborn

/-- **The times in a reply** are read back as they were: when the request
came, and how long it waited, exactly and in normal form. -/
theorem times_read_back {head : List Text} {status : Text} {req : Times} {stats : Stats}
    (h : Describes head status req stats)
    (harrival : 0 ≤ req.arrivalTime.sec ∧ 0 ≤ req.arrivalTime.usec ∧
      req.arrivalTime.usec < 1000000)
    (hdispatch : 0 ≤ req.dispatchTime.usec ∧ req.dispatchTime.micros < 2 ^ 64 * 1000000)
    (hle : req.arrivalTime.micros ≤ req.dispatchTime.micros) :
    (field "Stat-Req-Arrival:: ".toList head).bind readTimeval = some req.arrivalTime ∧
      ∃ t, (field "Stat-Req-Dispatch:: ".toList head).bind readTimeval = some t ∧
        t.micros = req.dispatchTime.micros - req.arrivalTime.micros ∧
        0 ≤ t.usec ∧ t.usec < 1000000 := by
  obtain ⟨hmicros, husec, husec'⟩ := interval_spec harrival.2.1 hdispatch.1
  obtain ⟨hsec0, husec0, husec1⟩ := harrival
  rw [h.arrival, h.dispatch]
  simp only [Timeval.micros] at hmicros hdispatch hle
  refine ⟨readTimeval_print hsec0 (by omega) husec0 husec1, interval req, ?_, hmicros, husec,
    husec'⟩
  exact readTimeval_print (by omega) (by omega) husec husec'

/-- A reply without a body. -/
theorem describes_bare (req : Times) (stats : Stats) :
    Describes (dynamicHead req stats).head "200 OK".toList req stats :=
  List.append_nil (dynamicHead req stats).head ▸
    describes ["Server: ".toList] [_] [] rfl dynamicNames_pairwise

theorem times_read_back_carry :
    ((field "Stat-Req-Dispatch:: ".toList
      (dynamicHead ⟨⟨5, 999999⟩, ⟨7, 1⟩⟩ (initStats 0)).head).bind readTimeval).isSome = true := by
  obtain ⟨-, t, ht, -⟩ := times_read_back (describes_bare ⟨⟨5, 999999⟩, ⟨7, 1⟩⟩ (initStats 0))
    (by decide) (by decide) (by decide)
  rw [ht]
  rfl

end OsAllHw.Server
