import OsAllHw.Lib.Words
import OsAllHw.Shell.Text

/-!
# Argument vectors

`_parseCommandLine` stores the words of a line in its caller's array, twenty
pointers at every call. Its nine callers rely on different numbers of words:
here is what each of them reads, and where `TimeoutCommand::execute` finds
the command it runs.
-/

namespace OsAllHw.Shell

open Lib

/-! ## Reading words -/

theorem wordsFrom_eq {word l : Text} (hword : Solid isSpace word) :
    wordsFrom word l = words isSpace (word.reverse ++ l) := by
  induction l generalizing word with
  | nil =>
      rw [wordsFrom, List.append_nil]
      by_cases hw : word = []
      · rw [if_pos hw, hw, List.reverse_nil, words_nil]
      · rw [if_neg hw,
          words_solid (fun c hc => hword c (List.mem_reverse.mp hc)) (by simpa using hw)]
  | cons c l ih =>
      have hnil : wordsFrom [] l = words isSpace ([].reverse ++ l) := ih (by simp [Solid])
      rw [List.reverse_nil, List.nil_append] at hnil
      by_cases hc : isSpace c = true
      · rw [wordsFrom, if_pos hc]
        by_cases hw : word = []
        · rw [if_pos hw, hw, List.reverse_nil, List.nil_append, words_sep hc, hnil]
        · have hrev : Solid isSpace word.reverse := fun d hd => hword d (List.mem_reverse.mp hd)
          rw [if_neg hw, words_append_sep hc, words_solid hrev (by simpa using hw), hnil,
            List.singleton_append]
      · have hsolid : Solid isSpace (c :: word) := fun d hd => by
          obtain rfl | hd := List.mem_cons.mp hd
          · simpa using hc
          · exact hword d hd
        rw [wordsFrom, if_neg hc, ih hsolid, List.reverse_cons, List.append_assoc,
          List.singleton_append]

theorem blank_takeWhile (l : Text) : Blank isSpace (l.takeWhile isSpace) :=
  fun _ hc => List.mem_takeWhile_imp hc

theorem rtrim_append_blank (l : Text) : ∃ s, l = rtrim l ++ s ∧ Blank isSpace s := by
  refine ⟨(l.reverse.takeWhile isSpace).reverse, ?_, fun c hc => ?_⟩
  · rw [rtrim, ← List.reverse_append, List.takeWhile_append_dropWhile, List.reverse_reverse]
  · exact List.mem_takeWhile_imp (List.mem_reverse.mp hc)

theorem words_ltrim (l : Text) : words isSpace (ltrim l) = words isSpace l := by
  conv_rhs => rw [← List.takeWhile_append_dropWhile (p := isSpace) (l := l)]
  rw [words_blank_append (blank_takeWhile l), ltrim]

theorem words_rtrim (l : Text) : words isSpace (rtrim l) = words isSpace l := by
  obtain ⟨s, hl, hs⟩ := rtrim_append_blank l
  conv_rhs => rw [hl]
  rw [words_append_blank hs]

/-- **The words of a line.** -/
theorem parseCommandLine_eq (cmdLine : Text) :
    parseCommandLine cmdLine = words isSpace cmdLine := by
  rw [parseCommandLine, wordsFrom_eq (by simp [Solid]), List.reverse_nil, List.nil_append, trim,
    words_rtrim, words_ltrim]

/-- A command of a kind with a name has that word. -/
theorem words_ne_nil {cmdLine : Text} (h : kindOf cmdLine ≠ .external) :
    words isSpace cmdLine ≠ [] := by
  intro hnil
  obtain hblank | ⟨s, w, r, rfl, hs, hne, hw, hr⟩ := blank_or_word isSpace cmdLine
  · have htrim : trim cmdLine = [] := by
      rw [trim, ltrim, List.dropWhile_eq_nil_iff.mpr hblank]
      rfl
    exact h (by rw [kindOf, firstWord, htrim]; decide)
  · rw [List.append_assoc, words_blank_append hs, words_append hw hne hr] at hnil
    cases hnil

/-! ## The array -/

/-- One pointer of the array. -/
inductive Slot where
  | unset
  | null
  | word (s : Text)
  deriving DecidableEq

/-- The size of every caller's array. -/
def argsSize : Nat := 20

/-- The stores of `_parseCommandLine`; `i` is its counter. -/
def stores (i : Nat) : List Text → List (Nat × Slot)
  | [] => []
  | s :: rest => (i, .word s) :: (i + 1, .null) :: stores (i + 1) rest

/-- The array after some stores. -/
def stored (args : Nat → Slot) : List (Nat × Slot) → Nat → Slot
  | [] => args
  | (i, slot) :: rest => stored (Function.update args i slot) rest

/-- The array after `_parseCommandLine`. -/
def argv (cmdLine : Text) : Nat → Slot :=
  stored (fun _ => .unset) (stores 0 (parseCommandLine cmdLine))

/-- The array holds the words of the line and then `NULL`, and no store was
outside it. -/
def Filled (cmdLine : Text) : Prop :=
  (∀ k, ∀ w ∈ (words isSpace cmdLine)[k]?, argv cmdLine k = .word w) ∧
  argv cmdLine (words isSpace cmdLine).length = .null ∧
  ∀ x ∈ stores 0 (parseCommandLine cmdLine), x.1 < argsSize

theorem stored_below {args : Nat → Slot} {i k : Nat} {ws : List Text} (hk : k < i) :
    stored args (stores i ws) k = args k := by
  induction ws generalizing args i with
  | nil => rfl
  | cons w ws ih =>
      rw [stores, stored, stored, ih (by omega), Function.update_of_ne (by omega),
        Function.update_of_ne (by omega)]

theorem stored_word (args : Nat → Slot) {i k : Nat} {w : Text} {ws : List Text}
    (hw : ws[k]? = some w) : stored args (stores i ws) (i + k) = .word w := by
  induction ws generalizing args i k with
  | nil => cases hw
  | cons v ws ih =>
      rw [stores, stored, stored]
      cases k with
      | zero =>
          cases hw
          rw [Nat.add_zero, stored_below (by omega), Function.update_of_ne (by omega)]
          exact Function.update_self ..
      | succ k =>
          have := ih (Function.update (Function.update args i (.word v)) (i + 1) .null)
            (i := i + 1) hw
          rwa [show i + 1 + k = i + (k + 1) by omega] at this

theorem stored_end (args : Nat → Slot) {i : Nat} {ws : List Text} (hne : ws ≠ []) :
    stored args (stores i ws) (i + ws.length) = .null := by
  induction ws generalizing args i with
  | nil => exact absurd rfl hne
  | cons w ws ih =>
      rw [stores, stored, stored, List.length_cons]
      by_cases hws : ws = []
      · subst hws
        exact Function.update_self ..
      · have := ih (Function.update (Function.update args i (.word w)) (i + 1) .null)
          (i := i + 1) hws
        rwa [show i + 1 + ws.length = i + (ws.length + 1) by omega] at this

theorem stores_lt {i n : Nat} {ws : List Text} (hne : ws ≠ []) :
    (∀ x ∈ stores i ws, x.1 < n) ↔ i + ws.length < n := by
  induction ws generalizing i with
  | nil => exact absurd rfl hne
  | cons w ws ih =>
      simp only [stores, List.forall_mem_cons, List.length_cons]
      by_cases hws : ws = []
      · subst hws
        simp [stores]
        omega
      · rw [ih hws]
        omega

/-- **The array is filled right** for one to nineteen words: a blank line
leaves even its first pointer unset. -/
theorem filled_iff (cmdLine : Text) :
    Filled cmdLine ↔
      0 < (words isSpace cmdLine).length ∧ (words isSpace cmdLine).length < argsSize := by
  by_cases hne : words isSpace cmdLine = []
  · have hunset : argv cmdLine 0 = .unset := by
      rw [argv, parseCommandLine_eq, hne]
      rfl
    rw [Filled, hne]
    simp [hunset]
  · have hpos := List.length_pos_iff.mpr hne
    simp only [Filled, argv, parseCommandLine_eq]
    constructor
    · rintro ⟨-, -, h⟩
      rw [stores_lt hne] at h
      omega
    · rintro ⟨-, hlt⟩
      refine ⟨fun k w hw => ?_, ?_, (stores_lt hne).mpr (by omega)⟩
      · simpa using stored_word (fun _ => .unset) (i := 0) hw
      · simpa using stored_end (fun _ => .unset) (i := 0) hne

/-! ## The callers -/

/-- The arguments `cat` looks at: the one it stops at is the last. -/
def catReads (k : Nat) : List Text → List Nat
  | [] => []
  | arg :: args =>
      if arg = ">".toList ∨ arg = ">>".toList ∨ arg = "|".toList ∨ arg = "|&".toList then [k]
      else k :: catReads (k + 1) args

/-- The `k` with a read through `args[k]` in a command's constructor or
`execute`, as far as its system calls let it get. `executeCommand` itself reads a
timeout's duration, unless the command is part of a pipe. -/
def derefs (inPipe : Bool) (prevPwd : Text) (kind : Kind) (args : List Text) : List Nat :=
  match kind with
  | .chprompt => if 1 < args.length then [1] else [] -- `args[1]` is not null
  | .cd =>
      if args.length = 1 then []
      else (if prevPwd = [] then [1] else []) ++ if args.length = 2 then [1] else []
  | .kill =>
      if args.length ≠ 3 then []
      else if (args.getD 1 []).head? ≠ some '-' ∨ atoi (args.getD 1 []).tail = 0 then [1]
      else [1, 2]
  | .cat => catReads 1 args.tail
  | .quit | .fg | .bg => if args.length = 2 then [1] else []
  | .timeout => if inPipe then [2] else [1, 2]
  | .showpid | .pwd | .jobs | .external => []

/-- The kinds that call `_parseCommandLine`. -/
def parses : Kind → Bool
  | .showpid | .pwd | .jobs | .external => false
  | _ => true

/-- The command lines `executeCommand` makes commands of. -/
def commandLines (cmdLine : Text) : List Text :=
  match isPipeCommand cmdLine, isRedirectionCommand cmdLine with
  | some type, _ => [before type cmdLine, after type cmdLine]
  | none, some type => [before type cmdLine]
  | none, none => [cmdLine]

/-- Every array that a line is parsed into is filled right, and every word
read through it is one of the words. -/
def ArgsSafe (prevPwd cmdLine : Text) : Prop :=
  ∀ c ∈ commandLines cmdLine, parses (kindOf c) →
    Filled c ∧ ∀ k ∈ derefs (isPipeCommand cmdLine).isSome prevPwd (kindOf c) (parseCommandLine c),
      k < (words isSpace c).length

theorem lt_of_mem_catReads {k j : Nat} {args : List Text} (h : j ∈ catReads k args) :
    j < k + args.length := by
  induction args generalizing k with
  | nil => cases h
  | cons arg args ih =>
      rw [catReads] at h
      rw [List.length_cons]
      split at h
      · rw [List.mem_singleton] at h
        omega
      · obtain rfl | h := List.mem_cons.mp h
        · omega
        · have := ih h
          omega

/-- Only `timeout` reads arguments it has not counted. -/
theorem derefs_lt_iff {inPipe : Bool} {prevPwd : Text} {kind : Kind} {args : List Text}
    (hne : args ≠ []) :
    (∀ k ∈ derefs inPipe prevPwd kind args, k < args.length) ↔
      (kind = .timeout → 3 ≤ args.length) := by
  have hpos := List.length_pos_iff.mpr hne
  cases kind with
  | chprompt => simp [derefs]
  | cd =>
      simp only [derefs, reduceCtorEq, false_implies, iff_true]
      intro k hk
      split at hk
      · cases hk
      · have : k = 1 := by
          obtain h | h := List.mem_append.mp hk <;> split at h <;> simp_all
        omega
  | kill =>
      simp only [derefs, reduceCtorEq, false_implies, iff_true]
      intro k hk
      split at hk
      · cases hk
      · have : k = 1 ∨ k = 2 := by
          split at hk <;> simp_all
        omega
  | cat =>
      simp only [derefs, reduceCtorEq, false_implies, iff_true]
      intro k hk
      have := lt_of_mem_catReads hk
      rw [List.length_tail] at this
      omega
  | quit | fg | bg =>
      simp only [derefs, reduceCtorEq, false_implies, iff_true]
      intro k hk
      split at hk
      · rw [List.mem_singleton] at hk
        omega
      · cases hk
  | timeout =>
      simp only [derefs, forall_const]
      cases inPipe with
      | true => simp; omega
      | false => simp; omega
  | showpid => simp [derefs]
  | pwd => simp [derefs]
  | jobs => simp [derefs]
  | external => simp [derefs]

theorem argsSafe_iff (prevPwd cmdLine : Text) :
    ArgsSafe prevPwd cmdLine ↔
      ∀ c ∈ commandLines cmdLine, parses (kindOf c) →
        (words isSpace c).length < argsSize ∧
          (kindOf c = .timeout → 3 ≤ (words isSpace c).length) := by
  refine forall₃_congr fun c hc hparses => ?_
  have hne : words isSpace c ≠ [] := words_ne_nil fun he => by
    rw [he] at hparses
    cases hparses
  rw [filled_iff, parseCommandLine_eq, derefs_lt_iff hne]
  exact and_congr_left fun _ => and_iff_right (List.length_pos_iff.mpr hne)

/-- **Argument vectors**: `_parseCommandLine` fills the array right for one to
nineteen words; and the arrays of a whole line are right and read inside their
words if its parsed commands have fewer than twenty words and its timeouts at
least three. -/
theorem arguments_in_bounds (prevPwd cmdLine : Text) :
    (Filled cmdLine ↔
      0 < (words isSpace cmdLine).length ∧ (words isSpace cmdLine).length < argsSize) ∧
    (ArgsSafe prevPwd cmdLine ↔
      ∀ c ∈ commandLines cmdLine, parses (kindOf c) →
        (words isSpace c).length < argsSize ∧
          (kindOf c = .timeout → 3 ≤ (words isSpace c).length)) :=
  ⟨filled_iff cmdLine, argsSafe_iff prevPwd cmdLine⟩

/-- `timeout 5`: the child reads through a pointer after the `NULL`. -/
theorem timeout_overruns :
    ¬((∀ cmdLine, Filled cmdLine) ∧ ∀ prevPwd cmdLine, ArgsSafe prevPwd cmdLine) := fun h =>
  absurd ((argsSafe_iff [] "timeout 5".toList).mp (h.2 _ _) "timeout 5".toList
    (by decide) (by decide)) (by decide)

/-! ## The command of a timeout -/

/-- What `TimeoutCommand::execute` runs, before it removes the background
sign: the line from the first place with the text of `args[2]` on. -/
def timeoutText (cmdLine : Text) : Option Text := do
  let args2 ← (parseCommandLine cmdLine)[2]?
  let pos ← find args2 cmdLine
  return trim (cmdLine.drop pos)

/-- A line of three words: the third is not found before its own place if it
is no piece of the other two. -/
theorem third_word {cmdLine w0 w1 w2 : Text} {ws : List Text}
    (h : words isSpace cmdLine = w0 :: w1 :: w2 :: ws) :
    ∃ l m, cmdLine = l ++ m ∧ fromWord isSpace 2 cmdLine = m ∧ w2 <+: m ∧ w2 ≠ [] ∧
      Solid isSpace w2 ∧ (Begins w2 l m ↔ w2 <:+: w0 ∨ w2 <:+: w1) := by
  obtain ⟨s0, r0, rfl, hs0, hne0, hw0, hr0, h0⟩ := words_eq_cons h
  obtain ⟨s1, r1, rfl, hs1, hne1, hw1, hr1, h1⟩ := words_eq_cons h0
  obtain ⟨s2, r2, rfl, hs2, hne2, hw2, hr2, -⟩ := words_eq_cons h1
  have hbegins : Begins w2 (s0 ++ w0 ++ (s1 ++ w1 ++ s2)) (w2 ++ r2) ↔ w2 <:+: w0 ∨ w2 <:+: w1 := by
    simp only [begins_append, not_begins_blank hw2 hne2 hs0, not_begins_blank hw2 hne2 hs1,
      not_begins_blank hw2 hne2 hs2, false_or, or_false]
    refine or_congr (begins_solid hw2 hne2 ?_) (begins_solid hw2 hne2 ?_)
    · simpa using hr0
    · simpa using hr1
  refine ⟨_, w2 ++ r2, by simp, ?_, List.prefix_append w2 r2, hne2, hw2, hbegins⟩
  rw [fromWord_succ 1 hs0 hw0 hne0 hr0, fromWord_succ 0 hs1 hw1 hne1 hr1,
    fromWord_zero hs2 hw2 hne2]

theorem rtrim_append {s t : Text} {c : Char} (hc : c ∈ t) (hspace : isSpace c = false) :
    rtrim (s ++ t) = s ++ rtrim t := by
  have hne : t.reverse.dropWhile isSpace ≠ [] := fun hnil => by
    have := List.dropWhile_eq_nil_iff.mp hnil c (List.mem_reverse.mpr hc)
    rw [hspace] at this
    cases this
  simp only [rtrim, List.reverse_append, List.dropWhile_append, List.isEmpty_iff, if_neg hne,
    List.reverse_reverse]

/-- Text that begins with a word is trimmed at its end only. -/
theorem trim_of_start {w m : Text} (hw : Solid isSpace w) (hne : w ≠ []) (hpre : w <+: m) :
    trim m = rtrim m := by
  obtain ⟨c, w, rfl⟩ := List.exists_cons_of_ne_nil hne
  obtain ⟨t, rfl⟩ := hpre
  have hc : isSpace c = false := hw c List.mem_cons_self
  rw [trim, ltrim, List.cons_append, List.dropWhile_cons_of_neg (by simp [hc])]

/-- **A timeout runs the text from its third word on** if that word occurs
neither in `timeout` nor in the duration. -/
theorem timeout_text (cmdLine w1 w2 : Text) (ws : List Text)
    (h : parseCommandLine cmdLine = "timeout".toList :: w1 :: w2 :: ws) :
    timeoutText cmdLine = some (trim (fromWord isSpace 2 cmdLine)) ↔
      ¬w2 <:+: "timeout".toList ∧ ¬w2 <:+: w1 := by
  rw [parseCommandLine_eq] at h
  obtain ⟨l, m, rfl, hfrom, hpre, hne, hsolid, hbegins⟩ := third_word h
  have hargs : (parseCommandLine (l ++ m))[2]? = some w2 := by rw [parseCommandLine_eq, h]; rfl
  rw [← not_or, ← hbegins, hfrom, timeoutText, hargs]
  constructor
  · rintro htext ⟨p, hp, hat⟩
    obtain ⟨q, hq⟩ := find_isSome hat
    obtain ⟨hfound, hfirst⟩ := find_eq_some hq
    have hqp : q ≤ p := by
      by_contra hlt
      exact hfirst p (by omega) hat
    have hsplit : (l ++ m).drop q = l.drop q ++ m := List.drop_append_of_le_length (by omega)
    obtain ⟨c, hc⟩ := List.exists_mem_of_ne_nil w2 hne
    have hlong : trim ((l ++ m).drop q) = l.drop q ++ trim m := by
      rw [trim_of_start hsolid hne hfound, trim_of_start hsolid hne hpre, hsplit,
        rtrim_append (hpre.subset hc) (hsolid c hc)]
    have heq : trim ((l ++ m).drop q) = trim m := by
      simpa [hq] using htext
    have hlen := congrArg List.length (hlong.symm.trans heq)
    rw [List.length_append, List.length_drop] at hlen
    omega
  · intro hfirst
    simp [find_append hpre hfirst]

theorem timeout_text_sleep :
    timeoutText " timeout 3 sleep 9".toList = some "sleep 9".toList :=
  (timeout_text _ "3".toList "sleep".toList ["9".toList] (by decide)).mpr (by decide)

/-- `timeout 5 5` runs `5 5`. -/
theorem timeout_runs_duration :
    ¬∀ cmdLine w1 w2 ws, parseCommandLine cmdLine = "timeout".toList :: w1 :: w2 :: ws →
      timeoutText cmdLine = some (trim (fromWord isSpace 2 cmdLine)) := fun h =>
  absurd (h "timeout 5 5".toList "5".toList "5".toList [] (by decide)) (by decide)

end OsAllHw.Shell
