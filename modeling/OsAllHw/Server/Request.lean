import OsAllHw.Lib.Lines
import OsAllHw.Lib.Path

/-!
# `request.c`: from the request line to a file

A C string is the list of its bytes before the terminator, each written as
the character with that code. The arrays of `requestHandle` have `MAXLINE`
bytes, and hold what the thread's stack held until they are written. Where
the C standard says nothing of what comes next there is no result but the
reason (`Undefined`).
-/

namespace OsAllHw.Server

open Lib

abbrev Text := List Char

/-- `MAXLINE`. -/
def maxline : Nat := 8192

/-- Why a handler has no meaning. -/
inductive Undefined where
  /-- A counter passes `INT_MAX`. -/
  | counter
  /-- `uri` is empty, and its last character is before the array. -/
  | uri
  /-- `filename` or `cgiargs` is written past its end. -/
  | filename
  /-- The page of `requestError` is longer than `body`. -/
  | body
  deriving DecidableEq

/-! ## The request line -/

/-- What `Rio_readlineb(&rio, buf, MAXLINE)` leaves in `buf`, and what is left
of the stream; at its end, `buf` as it was. -/
def rioReadlineb (stream buf : Text) : Text × Text :=
  if stream = [] then (buf, []) else takeLine '\n' (maxline - 1) stream

/-- What a string function sees of an array. -/
def cString (buf : Text) : Text := buf.takeWhile fun c => decide (c ≠ '\x00')

def isspace (c : Char) : Bool := decide (c ∈ [' ', '\t', '\n', '\x0b', '\x0c', '\r'])

/-- `sscanf(buf, "%s %s %s", method, uri, version)`, where it finds all three. -/
def scanRequest (buf : Text) : Option (Text × Text × Text) :=
  match words isspace (cString buf) with
  | method :: uri :: version :: _ => some (method, uri, version)
  | _ => none

/-- What it leaves in `method` and `uri`, with any number of words; one that is
missing leaves its array as it was. -/
def scanned (buf method uri : Text) : Text × Text :=
  ((words isspace (cString buf)).getD 0 method, (words isspace (cString buf)).getD 1 uri)

/-- With all three words the arrays hold the first two. -/
theorem scanned_eq {buf method uri version : Text}
    (h : scanRequest buf = some (method, uri, version)) (method' uri' : Text) :
    scanned buf method' uri' = (method, uri) := by
  unfold scanRequest at h
  split at h
  · rename_i hwords
    cases h
    rw [scanned, hwords]
    rfl
  · cases h

/-- `strcasecmp(s, t) == 0`. -/
def equalsIgnoreCase (s t : Text) : Prop := s.map Char.toLower = t.map Char.toLower

instance (s t : Text) : Decidable (equalsIgnoreCase s t) := inferInstanceAs (Decidable (_ = _))

/-! ## requestParseURI -/

/-- What `requestParseURI` returns and writes; to `cgiargs` it does not always
write. -/
structure ParsedURI where
  isStatic : Bool
  filename : Text
  cgiargs : Option Text
  deriving DecidableEq

/-- `requestParseURI`, for a `uri` that is not empty: the last character of an
empty one is not there. -/
def requestParseURI (uri : Text) : ParsedURI :=
  if "..".toList <:+: uri then ⟨true, "./public/home.html".toList, none⟩
  else if ¬"cgi".toList <:+: uri then
    let filename := "./public/".toList ++ uri
    ⟨true, if uri.getLast? = some '/' then filename ++ "home.html".toList else filename, some []⟩
  else
    -- `uri` is cut at the question mark
    let cut := uri.takeWhile fun c => decide (c ≠ '?')
    ⟨false, "./public/".toList ++ cut, some (uri.drop (cut.length + 1))⟩

/-! ## requestHandle -/

/-- What `stat` says of a file. -/
structure Stat where
  regular : Bool
  userReads : Bool
  userExecutes : Bool
  size : Nat
  deriving DecidableEq

inductive Response where
  /-- `requestError`. -/
  | error (cause errnum shortmsg longmsg : Text)
  | serveStatic (filename : Text) (filesize : Nat)
  | serveDynamic (filename cgiargs : Text)
  deriving DecidableEq

/-- What `requestParseURI` writes fits the caller's arrays, with the
terminators. -/
def Fits (parsed : ParsedURI) : Prop :=
  parsed.filename.length + 1 ≤ maxline ∧ ∀ args ∈ parsed.cgiargs, args.length + 1 ≤ maxline

instance (parsed : ParsedURI) : Decidable (Fits parsed) := inferInstanceAs (Decidable (_ ∧ _))

/-- `requestHandle` once the arrays are filled; the headers are read and
dropped before the file is looked up. -/
def requestHandle (stat : Text → Option Stat) (method uri : Text) : Except Undefined Response :=
  if ¬equalsIgnoreCase method "GET".toList then
    .ok (.error method "501".toList "Not Implemented".toList
      "OS-HW3 Server does not implement this method".toList)
  else if uri = [] then .error .uri
  else
    let parsed := requestParseURI uri
    if ¬Fits parsed then .error .filename
    else
      match stat parsed.filename with
      | none =>
          .ok (.error parsed.filename "404".toList "Not found".toList
            "OS-HW3 Server could not find this file".toList)
      | some sbuf =>
          if parsed.isStatic then
            if ¬sbuf.regular ∨ ¬sbuf.userReads then
              .ok (.error parsed.filename "403".toList "Forbidden".toList
                "OS-HW3 Server could not read this file".toList)
            else .ok (.serveStatic parsed.filename sbuf.size)
          else if ¬sbuf.regular ∨ ¬sbuf.userExecutes then
            .ok (.error parsed.filename "403".toList "Forbidden".toList
              "OS-HW3 Server could not run this CGI program".toList)
          else .ok (.serveDynamic parsed.filename (parsed.cgiargs.getD []))

/-- The file a response is made from. -/
def Response.file : Response → Option Text
  | .error .. => none
  | .serveStatic filename _ => some filename
  | .serveDynamic filename _ => some filename

/-! ## The public directory -/

/-- `./public`. -/
def publicDir : List Component := ["public".toList]

theorem public_staysIn {path : Text} (h : "..".toList ∉ components path) :
    StaysIn publicDir ("./public/".toList ++ path) := by
  have hroot : resolve [] (components "./public".toList) = some publicDir := by decide
  exact staysIn_append hroot h

/-- A path without `..` in it has no such component. -/
theorem dots_notMem {path uri : Text} (hpath : path <:+: uri) (h : ¬"..".toList <:+: uri) :
    "..".toList ∉ components path :=
  fun hmem => h ((infix_of_mem_components hmem).trans hpath)

/-- `home.html` in a directory. -/
theorem dots_notMem_home {uri : Text} (hlast : uri.getLast? = some '/')
    (h : ¬"..".toList <:+: uri) : "..".toList ∉ components (uri ++ "home.html".toList) := by
  obtain ⟨dir, rfl⟩ := List.getLast?_eq_some_iff.mp hlast
  rw [List.append_assoc, List.singleton_append, components_append_slash, List.mem_append, not_or]
  exact ⟨dots_notMem (List.prefix_append dir ['/']).isInfix h, by decide⟩

/-- A URI is cut at its first question mark. -/
theorem cut_at_mark {uri : Text} (h : '?' ∈ uri) :
    ∃ cut args, uri = cut ++ '?' :: args ∧ '?' ∉ cut ∧
      (uri.takeWhile fun c => decide (c ≠ '?')) = cut := by
  obtain ⟨cut, args, rfl, hcut⟩ := List.eq_append_cons_of_mem h
  refine ⟨cut, args, rfl, hcut, ?_⟩
  have hne : ∀ c ∈ cut, decide (c ≠ '?') = true := fun c hc =>
    decide_eq_true fun he => hcut (he ▸ hc)
  rw [List.takeWhile_append_of_pos hne, List.takeWhile_cons_of_neg (by simp), List.append_nil]

theorem filename_public (uri : Text) :
    "./public/".toList <+: (requestParseURI uri).filename ∧
      StaysIn publicDir (requestParseURI uri).filename := by
  unfold requestParseURI
  by_cases hdots : "..".toList <:+: uri
  · rw [if_pos hdots]
    have hhome : "./public/home.html".toList = "./public/".toList ++ "home.html".toList := by decide
    refine ⟨by decide, ?_⟩
    rw [hhome]
    exact public_staysIn (by decide)
  rw [if_neg hdots]
  by_cases hcgi : "cgi".toList <:+: uri
  · rw [if_neg (not_not.mpr hcgi)]
    have hcut : (uri.takeWhile fun c => decide (c ≠ '?')) <:+: uri :=
      (List.takeWhile_prefix _).isInfix
    exact ⟨List.prefix_append _ _, public_staysIn (dots_notMem hcut hdots)⟩
  · rw [if_pos hcgi]
    by_cases hlast : uri.getLast? = some '/'
    · simp only [if_pos hlast, List.append_assoc]
      exact ⟨List.prefix_append _ _, public_staysIn (dots_notMem_home hlast hdots)⟩
    · simp only [if_neg hlast]
      exact ⟨List.prefix_append _ _, public_staysIn (dots_notMem List.infix_rfl hdots)⟩

theorem requestParseURI_dots {uri : Text} (hdots : "..".toList <:+: uri) :
    requestParseURI uri = ⟨true, "./public/home.html".toList, none⟩ :=
  if_pos hdots

theorem requestParseURI_static {uri : Text} (hdots : ¬"..".toList <:+: uri)
    (hcgi : ¬"cgi".toList <:+: uri) :
    (requestParseURI uri).isStatic = true ∧ (requestParseURI uri).filename =
      "./public/".toList ++ uri ++ if uri.getLast? = some '/' then "home.html".toList else [] := by
  rw [requestParseURI, if_neg hdots, if_pos hcgi]
  refine ⟨rfl, ?_⟩
  by_cases hlast : uri.getLast? = some '/'
  · simp [hlast]
  · simp [hlast]

/-- In the dynamic case nothing of the URI is lost but the question mark. -/
theorem requestParseURI_dynamic {uri : Text} (hdots : ¬"..".toList <:+: uri)
    (hcgi : "cgi".toList <:+: uri) :
    (requestParseURI uri).isStatic = false ∧
      ('?' ∉ uri → (requestParseURI uri).filename = "./public/".toList ++ uri ∧
        (requestParseURI uri).cgiargs = some []) ∧
      ('?' ∈ uri → '?' ∉ (requestParseURI uri).filename ∧
        ∃ args, (requestParseURI uri).cgiargs = some args ∧
          (requestParseURI uri).filename ++ "?".toList ++ args = "./public/".toList ++ uri) := by
  rw [requestParseURI, if_neg hdots, if_neg (not_not.mpr hcgi)]
  refine ⟨rfl, fun hmark => ?_, fun hmark => ?_⟩
  · have hall : (uri.takeWhile fun c => decide (c ≠ '?')) = uri :=
      List.takeWhile_eq_self_iff.mpr fun c hc => decide_eq_true fun he => hmark (he ▸ hc)
    rw [hall]
    exact ⟨rfl, by simp⟩
  · obtain ⟨cut, args, huri, hfirst, htake⟩ := cut_at_mark hmark
    rw [htake]
    refine ⟨?_, args, ?_, ?_⟩
    · simp [hfirst]
    · simp [huri]
    · simp [huri]

/-- **Requests stay in the public directory**: the file asked for is in it, and
it is the home page for a URI with `..`, the file of that name (the home page
of a directory) for one without `cgi`, and otherwise the program before the
question mark, with all that follows it as its arguments. -/
theorem requests_stay_public (uri : Text) :
    "./public/".toList <+: (requestParseURI uri).filename ∧
      StaysIn publicDir (requestParseURI uri).filename ∧
      ("..".toList <:+: uri → (requestParseURI uri).isStatic = true ∧
        (requestParseURI uri).filename = "./public/home.html".toList) ∧
      (¬"..".toList <:+: uri → ¬"cgi".toList <:+: uri →
        (requestParseURI uri).isStatic = true ∧ (requestParseURI uri).filename =
          "./public/".toList ++ uri ++
            if uri.getLast? = some '/' then "home.html".toList else []) ∧
      (¬"..".toList <:+: uri → "cgi".toList <:+: uri →
        (requestParseURI uri).isStatic = false ∧
          ('?' ∉ uri → (requestParseURI uri).filename = "./public/".toList ++ uri ∧
            (requestParseURI uri).cgiargs = some []) ∧
          ('?' ∈ uri → '?' ∉ (requestParseURI uri).filename ∧
            ∃ args, (requestParseURI uri).cgiargs = some args ∧
              (requestParseURI uri).filename ++ "?".toList ++ args =
                "./public/".toList ++ uri)) := by
  obtain ⟨hpublic, hstays⟩ := filename_public uri
  refine ⟨hpublic, hstays, fun hdots => ?_, requestParseURI_static, requestParseURI_dynamic⟩
  rw [requestParseURI_dots hdots]
  exact ⟨rfl, rfl⟩

theorem requests_stay_public_query :
    (requestParseURI "//output.cgi?a=?/b".toList).isStatic = false ∧
      '?' ∉ (requestParseURI "//output.cgi?a=?/b".toList).filename := by
  obtain ⟨-, -, -, -, hdynamic⟩ := requests_stay_public "//output.cgi?a=?/b".toList
  obtain ⟨hstatic, -, hmark⟩ := hdynamic (by decide) (by decide)
  exact ⟨hstatic, (hmark (by decide)).1⟩

/-- **What `requestHandle` answers**: each of its ends, with what was found of
the file. -/
inductive Answers (stat : Text → Option Stat) (method uri : Text) : Response → Prop where
  | notImplemented (hmethod : ¬equalsIgnoreCase method "GET".toList) :
      Answers stat method uri (.error method "501".toList "Not Implemented".toList
        "OS-HW3 Server does not implement this method".toList)
  | notFound (hstat : stat (requestParseURI uri).filename = none) :
      Answers stat method uri (.error (requestParseURI uri).filename "404".toList
        "Not found".toList "OS-HW3 Server could not find this file".toList)
  | forbidden (longmsg : Text) :
      Answers stat method uri (.error (requestParseURI uri).filename "403".toList
        "Forbidden".toList longmsg)
  | static {sbuf} (hstat : stat (requestParseURI uri).filename = some sbuf) :
      Answers stat method uri (.serveStatic (requestParseURI uri).filename sbuf.size)
  | dynamic :
      Answers stat method uri (.serveDynamic (requestParseURI uri).filename
        ((requestParseURI uri).cgiargs.getD []))

theorem requestHandle_answers {stat : Text → Option Stat} {method uri : Text} {r : Response}
    (h : requestHandle stat method uri = .ok r) : Answers stat method uri r := by
  unfold requestHandle at h
  split at h
  · cases h
    exact .notImplemented ‹_›
  split at h
  · cases h
  dsimp only at h
  split at h
  · cases h
  split at h
  · cases h
    exact .notFound ‹_›
  split at h
  · split at h
    · cases h
      exact .forbidden _
    · cases h
      exact .static ‹_›
  · split at h
    · cases h
      exact .forbidden _
    · cases h
      exact .dynamic

/-- What `requestHandle` answers at all. -/
theorem requestHandle_defined (stat : Text → Option Stat) {method uri : Text} :
    (∃ r, requestHandle stat method uri = .ok r) ↔
      (equalsIgnoreCase method "GET".toList → uri ≠ [] ∧ Fits (requestParseURI uri)) := by
  unfold requestHandle
  by_cases hget : equalsIgnoreCase method "GET".toList
  · rw [if_neg (not_not.mpr hget)]
    by_cases huri : uri = []
    · rw [if_pos huri]
      refine iff_of_false ?_ fun h => (h hget).1 huri
      rintro ⟨r, h⟩
      cases h
    · by_cases hfits : Fits (requestParseURI uri)
      · refine iff_of_true ?_ fun _ => ⟨huri, hfits⟩
        simp only [if_neg huri, if_neg (not_not.mpr hfits)]
        split
        · exact ⟨_, rfl⟩
        split
        · split <;> exact ⟨_, rfl⟩
        · split <;> exact ⟨_, rfl⟩
      · refine iff_of_false ?_ fun h => hfits (h hget).2
        simp only [if_neg huri, if_pos hfits]
        rintro ⟨r, h⟩
        cases h
  · rw [if_pos hget]
    exact iff_of_true ⟨_, rfl⟩ fun h => absurd h hget

/-- Whatever is served or run is a file of the public directory. -/
theorem served_public {stat : Text → Option Stat} {method uri filename : Text} {r : Response}
    (h : requestHandle stat method uri = .ok r) (hfile : r.file = some filename) :
    StaysIn publicDir filename := by
  have hpublic := (filename_public uri).2
  cases requestHandle_answers h with
  | notImplemented hmethod => cases hfile
  | notFound hstat => cases hfile
  | forbidden longmsg => cases hfile
  | static hstat =>
      cases hfile
      exact hpublic
  | dynamic =>
      cases hfile
      exact hpublic

/-! ## The buffers -/

/-- A scanned word is no longer than the line. -/
theorem length_scanned {buf method uri version : Text}
    (h : scanRequest buf = some (method, uri, version)) : uri.length ≤ buf.length := by
  have hmem : uri ∈ words isspace (cString buf) := by
    unfold scanRequest at h
    split at h
    · rename_i hwords
      cases h
      simp [hwords]
    · cases h
  have hsub := (of_mem_words hmem).2.2
  exact (hsub.trans (List.takeWhile_prefix _).isInfix).length_le

theorem fits_iff {uri : Text} (hlen : uri.length < maxline) :
    Fits (requestParseURI uri) ↔
      "..".toList <:+: uri ∨
      ¬"cgi".toList <:+: uri ∧
        uri.length + (if uri.getLast? = some '/' then 18 else 9) < maxline ∨
      "cgi".toList <:+: uri ∧ (uri.takeWhile fun c => decide (c ≠ '?')).length + 9 < maxline := by
  have hmax : maxline = 8192 := rfl
  have hpublic : "./public/".toList.length = 9 := by decide
  have hhome : "home.html".toList.length = 9 := by decide
  unfold requestParseURI Fits
  by_cases hdots : "..".toList <:+: uri
  · rw [if_pos hdots]
    refine iff_of_true ⟨by decide, nofun⟩ (.inl hdots)
  by_cases hcgi : "cgi".toList <:+: uri
  · rw [if_neg hdots, if_neg (not_not.mpr hcgi), or_iff_right hdots,
      or_iff_right fun h => h.1 hcgi, and_iff_right hcgi]
    simp only [List.length_append, hpublic, Option.mem_def, Option.some.injEq, forall_eq',
      List.length_drop]
    omega
  · rw [if_neg hdots, if_pos hcgi, or_iff_right hdots, or_iff_left fun h => hcgi h.1,
      and_iff_right hcgi]
    by_cases hlast : uri.getLast? = some '/'
    · simp only [if_pos hlast, List.length_append, hpublic, hhome, Option.mem_def,
        Option.some.injEq, forall_eq', List.length_nil]
      omega
    · simp only [if_neg hlast, List.length_append, hpublic, Option.mem_def,
        Option.some.injEq, forall_eq', List.length_nil]
      omega

/-- What stands between blanks in a request line. -/
def Token (w : Text) : Prop := w ≠ [] ∧ Solid isspace w ∧ '\x00' ∉ w

/-- An ordinary request line is scanned as it is. -/
theorem scanRequest_tokens {method uri version : Text} (hm : Token method) (hu : Token uri)
    (hv : Token version) :
    scanRequest (method ++ ' ' :: (uri ++ ' ' :: version)) = some (method, uri, version) := by
  have hnul : '\x00' ∉ method ++ ' ' :: (uri ++ ' ' :: version) := by
    simp [hm.2.2, hu.2.2, hv.2.2]
  have hline : cString (method ++ ' ' :: (uri ++ ' ' :: version)) =
      method ++ ' ' :: (uri ++ ' ' :: version) :=
    List.takeWhile_eq_self_iff.mpr fun c hc => decide_eq_true fun he => hnul (he ▸ hc)
  have hspace : isspace ' ' = true := by decide
  rw [scanRequest, hline, words_append_sep hspace, words_append_sep hspace,
    words_solid hm.2.1 hm.1, words_solid hu.2.1 hu.1, words_solid hv.2.1 hv.1]
  rfl

/-- A request line that fits the buffer is delivered whole. -/
theorem rioReadlineb_all {stream buf : Text} (hne : stream ≠ []) (hnl : '\n' ∉ stream)
    (hlen : stream.length < maxline) : rioReadlineb stream buf = (stream, []) := by
  rw [rioReadlineb, if_neg hne, takeLine_all hnl (by omega)]

/-- As many `a`. -/
def longUri (n : Nat) : Text := List.replicate n 'a'

theorem longUri_token {n : Nat} (hn : 0 < n) : Token (longUri n) := by
  refine ⟨by simpa [longUri] using hn.ne', fun c hc => ?_, fun h => ?_⟩
  · rw [List.eq_of_mem_replicate hc]
    decide
  · exact absurd (List.eq_of_mem_replicate h) (by decide)

theorem longUri_read (n : Nat) (buf : Text) (hn : 0 < n) (hlen : n + 6 < maxline) :
    scanRequest (rioReadlineb ("GET".toList ++ ' ' :: (longUri n ++ ' ' :: "x".toList)) buf).1 =
      some ("GET".toList, longUri n, "x".toList) := by
  have hnl : '\n' ∉ "GET".toList ++ ' ' :: (longUri n ++ ' ' :: "x".toList) := by
    simp [longUri]
  have htoken := longUri_token hn
  rw [rioReadlineb_all (by simp) hnl (by simp [longUri]; omega)]
  refine scanRequest_tokens ⟨by decide, ?_, by decide⟩ htoken ⟨by decide, ?_, by decide⟩
  · simp [Solid, isspace]
  · simp [Solid, isspace]

/-- It asks for a file. -/
theorem longUri_static (n : Nat) :
    ¬"..".toList <:+: longUri n ∧ ¬"cgi".toList <:+: longUri n ∧
      (longUri n).getLast? ≠ some '/' ∧ (longUri n).length = n := by
  have hall : ∀ c ∈ longUri n, c = 'a' := fun c hc => List.eq_of_mem_replicate hc
  refine ⟨fun h => ?_, fun h => ?_, fun h => ?_, List.length_replicate ..⟩
  · exact absurd (hall '.' (h.subset (by decide))) (by decide)
  · exact absurd (hall 'c' (h.subset (by decide))) (by decide)
  · exact absurd (hall '/' (List.mem_of_getLast? h)) (by decide)

theorem longUri_fits {n : Nat} (hlen : n < maxline) :
    Fits (requestParseURI (longUri n)) ↔ n + 9 < maxline := by
  obtain ⟨hdots, hcgi, hlast, hlength⟩ := longUri_static n
  rw [fits_iff (by omega), or_iff_right hdots, or_iff_left fun h => hcgi h.1, and_iff_right hcgi,
    if_neg hlast, hlength]

/-- **The request path fits its buffer** if it is not too long: the limit on
the line is above it. -/
theorem request_path_fits (stream buf method uri version : Text) (hstream : stream ≠ [])
    (hscan : scanRequest (rioReadlineb stream buf).1 = some (method, uri, version)) :
    Fits (requestParseURI uri) ↔
      "..".toList <:+: uri ∨
      ¬"cgi".toList <:+: uri ∧
        uri.length + (if uri.getLast? = some '/' then 18 else 9) < maxline ∨
      "cgi".toList <:+: uri ∧ (uri.takeWhile fun c => decide (c ≠ '?')).length + 9 < maxline := by
  have hline : (rioReadlineb stream buf).1.length ≤ maxline - 1 := by
    rw [rioReadlineb, if_neg hstream]
    exact takeLine_length ..
  have hmax : maxline = 8192 := rfl
  exact fits_iff (by have := length_scanned hscan; omega)

theorem request_path_fits_longest : Fits (requestParseURI (longUri 8182)) := by
  obtain ⟨-, hcgi, hlast, hlength⟩ := longUri_static 8182
  refine (request_path_fits _ [] _ _ _ (by simp)
    (longUri_read 8182 [] (by decide) (by decide))).mpr (.inr (.inl ⟨hcgi, ?_⟩))
  rw [if_neg hlast, hlength]
  decide

/-- One byte more, and the terminator is written after the array. -/
theorem request_path_overflows :
    ¬∀ stream buf method uri version, stream ≠ [] →
      scanRequest (rioReadlineb stream buf).1 = some (method, uri, version) →
      equalsIgnoreCase method "GET".toList → Fits (requestParseURI uri) := fun h =>
  absurd ((longUri_fits (by decide)).mp (h _ [] _ _ _ (by simp)
    (longUri_read 8183 [] (by decide) (by decide)) (by decide))) (by decide)

end OsAllHw.Server
