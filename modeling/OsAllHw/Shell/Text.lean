import Mathlib

/-!
# Reading a command line

The text functions of `Commands.cpp`. A C string is the list of its
characters before the terminator.
-/

namespace OsAllHw.Shell

abbrev Text := List Char

/-- `WHITESPACE`. -/
def whitespace : Text := [' ', '\n', '\r', '\t', '\x0c', '\x0b']

def isSpace (c : Char) : Bool := decide (c ∈ whitespace)

/-- `_isPipeCommand`: the operator, if there is one. -/
def isPipeCommand (cmdLine : Text) : Option Text :=
  if "|&".toList <:+: cmdLine then some "|&".toList
  else if '|' ∈ cmdLine then some "|".toList
  else none

/-- `_isRedirectionCommand`. -/
def isRedirectionCommand (cmdLine : Text) : Option Text :=
  if ">>".toList <:+: cmdLine then some ">>".toList
  else if '>' ∈ cmdLine then some ">".toList
  else none

/-- `substr(0, find_first_of(type))`: up to the first character of `type`. -/
def before (type cmdLine : Text) : Text := cmdLine.takeWhile fun c => decide (c ∉ type)

/-- `substr(find_first_of(type) + type.length())`. -/
def after (type cmdLine : Text) : Text :=
  cmdLine.drop ((before type cmdLine).length + type.length)

def ltrim (s : Text) : Text := s.dropWhile isSpace

def rtrim (s : Text) : Text := (s.reverse.dropWhile isSpace).reverse

def trim (s : Text) : Text := rtrim (ltrim s)

/-- `iss >> s` until it fails; `word` is the word so far, reversed. -/
def wordsFrom (word : Text) : Text → List Text
  | [] => if word = [] then [] else [word.reverse]
  | c :: rest =>
      if isSpace c then
        if word = [] then wordsFrom [] rest else word.reverse :: wordsFrom [] rest
      else wordsFrom (c :: word) rest

/-- `_parseCommandLine`: the words `args[0], args[1], …`. -/
def parseCommandLine (cmdLine : Text) : List Text := wordsFrom [] (trim cmdLine)

/-- `_isBackgroundComamnd`. On a line of blanks it reads the character at
`npos`, outside the string: `stray` says whether an `&` is there. -/
def isBackgroundCommand (stray : Bool) (cmdLine : Text) : Bool :=
  match (rtrim cmdLine).getLast? with
  | some c => c = '&'
  | none => stray

/-- `_removeBackgroundSign`: the `&` becomes a space, and the line is cut
after it. -/
def removeBackgroundSign (cmdLine : Text) : Text :=
  if (rtrim cmdLine).getLast? = some '&' then (rtrim cmdLine).dropLast ++ [' ']
  else cmdLine

def digit (c : Char) : Int := (c.toNat : Int) - '0'.toNat

/-- glibc's `atoi`: the longest decimal prefix, clamped to a `long`, cast to
an `int`. -/
def atoi (s : Text) : Int :=
  let s := ltrim s
  let negative := s.head? = some '-'
  let digits := if negative ∨ s.head? = some '+' then s.tail else s
  let n := (digits.takeWhile Char.isDigit).foldl (fun n c => 10 * n + digit c) 0
  let long := if negative then max (-2 ^ 63) (-n) else min (2 ^ 63 - 1) n
  (long + 2 ^ 31) % 2 ^ 32 - 2 ^ 31

/-- What `CreateCommand` tells apart. -/
inductive Kind where
  | chprompt | showpid | pwd | cd | fg | bg | jobs | kill | cat | quit | timeout | external
  deriving DecidableEq

def firstWord (cmdLine : Text) : Text := before " \n>|&".toList (trim cmdLine)

def kindOf (cmdLine : Text) : Kind :=
  let w := firstWord cmdLine
  if w = "chprompt".toList then .chprompt
  else if w = "showpid".toList then .showpid
  else if w = "pwd".toList then .pwd
  else if w = "cd".toList then .cd
  else if w = "fg".toList then .fg
  else if w = "bg".toList then .bg
  else if w = "jobs".toList then .jobs
  else if w = "kill".toList then .kill
  else if w = "cat".toList then .cat
  else if w = "quit".toList then .quit
  else if w = "timeout".toList then .timeout
  else .external

example : parseCommandLine " timeout 5  sleep 9 &".toList =
    ["timeout".toList, "5".toList, "sleep".toList, "9".toList, "&".toList] := by decide

example : atoi "-17x".toList = -17 := by decide

end OsAllHw.Shell
