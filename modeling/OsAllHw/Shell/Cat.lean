import Mathlib
import OsAllHw.Shell.Model

/-!
# What cat copies

`CatCommand::execute` with its loop over a file opened up: every `read` and
`write`, and how many bytes each of them moves. The loop takes a short read
for the end of the file and ignores what `write` accepted, so how much of a
file arrives depends on how the kernel divides it.
-/

namespace OsAllHw.Shell

open Lib

/-! ## The code -/

/-- An argument, the file behind it and what the calls on it will meet. -/
structure CatFile where
  path : Text
  contents : List UInt8
  /-- What `open` returns. -/
  fd : Int
  /-- The most the `j`-th `read` returns; none where it fails. -/
  read : Nat → Option Nat
  /-- The most the `j`-th `write` accepts; none where it fails. -/
  write : Nat → Option Nat
  closes : Bool

inductive CatCall where
  | cout (msg : Text)
  | openFile (path : Text) (fd : Int)
  | read (fd : Int) (buffer : Option (List UInt8))
  /-- To descriptor 1. -/
  | write (buffer : List UInt8) (accepted : Option Nat)
  | close (fd : Int) (closed : Bool)
  | perror (msg : Text)

/-- A read of at most `most` bytes, and a write that accepts at most `accepted`
of them. -/
def CatFile.turn (f : CatFile) (most accepted : Nat) (rest : List UInt8) : List CatCall :=
  let buffer := rest.take (min most 20)
  [.read f.fd (some buffer), .write buffer (some (min accepted buffer.length))]

/-- A full buffer leaves less to come. -/
theorem length_drop_lt {rest : List UInt8} {most : Nat} (h : (rest.take most).length = 20) :
    (rest.drop (rest.take most).length).length < rest.length := by
  have hle : (rest.take most).length ≤ rest.length := List.length_take_le' ..
  rw [List.length_drop]
  omega

/-- `while (count == 20)`, after `j` turns and with `rest` of the file to come:
its calls, and how it ends. -/
def CatFile.copy (f : CatFile) (j : Nat) (rest : List UInt8) : List CatCall × Copied :=
  match f.read j with
  | none => ([.read f.fd none], .readFailed)
  | some most =>
      let buffer := rest.take (min most 20)
      match f.write j with
      | none => ([.read f.fd (some buffer), .write buffer none], .writeFailed)
      | some accepted =>
          if _hfull : buffer.length = 20 then
            let (calls, how) := f.copy (j + 1) (rest.drop buffer.length)
            (f.turn most accepted rest ++ calls, how)
          else (f.turn most accepted rest, .copied)
  termination_by rest.length
  decreasing_by exact length_drop_lt _hfull

structure CatState where
  /-- Those still to be opened. -/
  files : List CatFile
  opened : Option CatFile
  calls : List CatCall

def CatState.log (s : CatState) (calls : List CatCall) : CatState :=
  { s with calls := s.calls ++ calls }

/-- The calls of `catFiles`: each `open` is for the next file, the others for
the one that is open. -/
def catStep : (op : Op) → CatState → Option (Resp op × CatState)
  | .openFile path, s =>
      match s.files with
      | [] => some (-1, s.log [.openFile path (-1)])
      | f :: files => some (f.fd, ⟨files, some f, s.calls ++ [.openFile path f.fd]⟩)
  | .copyOut _, s => do
      let f ← s.opened
      let (calls, how) := f.copy 0 f.contents
      return (how, s.log calls)
  | .close fd, s => do
      let f ← s.opened
      return (if f.closes then 0 else -1, s.log [.close fd f.closes])
  | .error msg, s => some ((), s.log [.perror msg])
  | _, _ => none

/-- `CatCommand::execute` on a line of these words. -/
def cat (args : List Text) (files : List CatFile) : Option (List CatCall) := do
  let start : List CatCall :=
    if args.length = 1 then [.cout "smash error: cat: not enough arguments\n".toList] else []
  let ((), s) ← (execute .cat args).run catStep ⟨files, none, start⟩
  return s.calls

/-! ## What is asked of it -/

/-- The bytes a call writes to descriptor 1. -/
def CatCall.output : CatCall → List UInt8
  | .cout msg => msg.map fun c => c.toNat.toUInt8
  | .write buffer (some accepted) => buffer.take accepted
  | _ => []

def output (calls : List CatCall) : List UInt8 := calls.flatMap CatCall.output

/-- A read of the file, or a write. -/
def CatCall.Moves (f : CatFile) : CatCall → Prop
  | .read fd _ => fd = f.fd
  | .write _ _ => True
  | _ => False

/-- Each file in turn is opened, moved from, and closed. -/
inductive OneByOne : List CatFile → List CatCall → Prop where
  | nil : OneByOne [] []
  | cons {f files calls rest} (hmoves : ∀ c ∈ calls, c.Moves f) (hrest : OneByOne files rest) :
      OneByOne (f :: files) (.openFile (trim f.path) f.fd :: (calls ++ .close f.fd true :: rest))

/-- The files' contents on descriptor 1, in order, and each file closed. -/
structure CopiesFiles (files : List CatFile) (calls : List CatCall) : Prop where
  written : output calls = files.flatMap CatFile.contents
  closed : OneByOne files calls

/-- The file can be opened, and its reads and writes each move something. -/
structure CatFile.Legal (f : CatFile) : Prop where
  opens : f.fd ≠ -1
  plain : ¬(f.path = ">".toList ∨ f.path = ">>".toList ∨ f.path = "|".toList ∨
    f.path = "|&".toList)
  read : ∀ j, ∃ most, f.read j = some most ∧ 1 ≤ most
  write : ∀ j, ∃ accepted, f.write j = some accepted ∧ 1 ≤ accepted

/-- From turn `j` on, with `n` bytes to come, reads and writes move all that a
buffer of 20 can take. -/
def CatFile.Whole (f : CatFile) (j n : Nat) : Prop :=
  ∀ i, 20 * i ≤ n → min 20 (n - 20 * i) ≤ (f.read (j + i)).getD 0 ∧
    min 20 (n - 20 * i) ≤ (f.write (j + i)).getD 0

/-- No read or write of the file is short. -/
def CatFile.Complete (f : CatFile) : Prop := f.Whole 0 f.contents.length

/-! ## One file -/

@[simp] theorem output_nil : output [] = [] := rfl

@[simp] theorem output_cons (c : CatCall) (calls : List CatCall) :
    output (c :: calls) = c.output ++ output calls := rfl

@[simp] theorem output_append (calls calls' : List CatCall) :
    output (calls ++ calls') = output calls ++ output calls' := List.flatMap_append ..

section

variable {f : CatFile} {j n : Nat} {rest : List UInt8}

/-- **One turn** moves all it can, and the later ones do. -/
theorem CatFile.whole_iff : f.Whole j n ↔
    (min 20 n ≤ (f.read j).getD 0 ∧ min 20 n ≤ (f.write j).getD 0) ∧
      (20 ≤ n → f.Whole (j + 1) (n - 20)) := by
  constructor
  · intro h
    refine ⟨by simpa using h 0 (by omega), fun hn i hi => ?_⟩
    have hnext := h (i + 1) (by omega)
    rwa [show j + (i + 1) = j + 1 + i by omega,
      show n - 20 * (i + 1) = n - 20 - 20 * i by omega] at hnext
  · rintro ⟨hfirst, hrest⟩ i hi
    cases i with
    | zero => simpa using hfirst
    | succ i =>
        have hnext := hrest (by omega) i (by omega)
        rwa [show j + 1 + i = j + (i + 1) by omega,
          show n - 20 - 20 * i = n - 20 * (i + 1) by omega] at hnext

/-- What the loop does from turn `j` on, with `rest` to come. -/
structure Copying (f : CatFile) (j : Nat) (rest : List UInt8) (x : List CatCall × Copied) :
    Prop where
  how : x.2 = .copied
  moves : ∀ c ∈ x.1, c.Moves f
  written : (output x.1).Sublist rest
  whole : (output x.1).length = rest.length ↔ f.Whole j rest.length

theorem CatFile.turn_moves {most accepted : Nat} :
    ∀ c ∈ f.turn most accepted rest, c.Moves f := by
  simp [CatFile.turn, CatCall.Moves]

@[simp] theorem CatFile.output_turn {most accepted : Nat} :
    output (f.turn most accepted rest) = (rest.take (min most 20)).take accepted := by
  simp [CatFile.turn, CatCall.output, List.take_take]

/-- **The loop over one file** writes some of it, and all of it exactly if no
read and no write is short. -/
theorem CatFile.Legal.copying (h : f.Legal) (j : Nat) (rest : List UInt8) :
    Copying f j rest (f.copy j rest) := by
  induction hn : rest.length using Nat.strong_induction_on generalizing j rest with
  | h n ih =>
    obtain ⟨most, hread, hmost⟩ := h.read j
    obtain ⟨accepted, hwrite, haccepted⟩ := h.write j
    have hwhole := CatFile.whole_iff (f := f) (j := j) (n := rest.length)
    rw [hread, hwrite, Option.getD_some, Option.getD_some] at hwhole
    rw [CatFile.copy, hread, hwrite]
    simp only
    split
    · rename_i hfull
      have hlong : 20 ≤ most ∧ 20 ≤ rest.length := by
        rw [List.length_take] at hfull
        omega
      have hbuffer : rest.take (min most 20) = rest.take 20 := by
        rw [Nat.min_eq_right hlong.1]
      have hnext := ih (rest.length - 20) (by omega) (j + 1) (rest.drop 20) (by simp)
      rw [hfull]
      refine ⟨hnext.how, fun c hc => ?_, ?_, ?_⟩
      · obtain hc | hc := List.mem_append.mp hc
        · exact CatFile.turn_moves c hc
        · exact hnext.moves c hc
      · have hsub : (((rest.take 20).take accepted) ++
            output (f.copy (j + 1) (rest.drop 20)).1).Sublist (rest.take 20 ++ rest.drop 20) :=
          (List.take_sublist ..).append hnext.written
        rw [List.take_append_drop] at hsub
        rwa [output_append, CatFile.output_turn, hbuffer]
      · have hle := hnext.written.length_le
        have hiff := hnext.whole
        rw [List.length_drop] at hle hiff
        rw [hwhole, output_append, List.length_append, CatFile.output_turn, hbuffer]
        simp only [List.length_take]
        constructor
        · intro hlen
          exact ⟨by omega, fun _ => hiff.mp (by omega)⟩
        · rintro ⟨hmin, hrest⟩
          have := hiff.mpr (hrest hlong.2)
          omega
    · rename_i hshort
      refine ⟨rfl, CatFile.turn_moves, ?_, ?_⟩
      · rw [CatFile.output_turn]
        exact (List.take_sublist ..).trans (List.take_sublist ..)
      · rw [List.length_take] at hshort
        rw [hwhole, CatFile.output_turn, List.length_take, List.length_take]
        constructor
        · intro hlen
          exact ⟨by omega, fun hlong => by omega⟩
        · rintro ⟨hmin, -⟩
          omega

end

/-- Nothing is lost from the whole exactly if nothing is lost from either part. -/
theorem append_eq_iff_of_sublist {α : Type} {l l' m m' : List α} (hl : l.Sublist m)
    (hl' : l'.Sublist m') : l ++ l' = m ++ m' ↔ l.length = m.length ∧ l' = m' := by
  constructor
  · intro heq
    have hlen := congrArg List.length heq
    have hle := hl.length_le
    have hle' := hl'.length_le
    rw [List.length_append, List.length_append] at hlen
    exact ⟨by omega, hl'.eq_of_length (by omega)⟩
  · rintro ⟨hlen, rfl⟩
    rw [hl.eq_of_length hlen]

/-! ## All files -/

/-- The calls for files that can be opened and copied; a `close` that fails
ends them. -/
def callsFor : List CatFile → List CatCall
  | [] => []
  | f :: files =>
      .openFile (trim f.path) f.fd :: ((f.copy 0 f.contents).1 ++ .close f.fd f.closes ::
        if f.closes then callsFor files else [.perror "smash error: close failed".toList])

section

variable {files : List CatFile}

theorem catFiles_run (hlegal : ∀ f ∈ files, f.Legal) (opened : Option CatFile)
    (calls : List CatCall) :
    ∃ s, (catFiles (files.map CatFile.path)).run catStep ⟨files, opened, calls⟩ = some ((), s) ∧
      s.calls = calls ++ callsFor files := by
  induction files generalizing opened calls with
  | nil => exact ⟨_, rfl, by simp [callsFor]⟩
  | cons f files ih =>
      obtain ⟨hf, hfiles⟩ := List.forall_mem_cons.mp hlegal
      have hhow := (hf.copying 0 f.contents).how
      have hplain := hf.plain
      have hopens := hf.opens
      rw [List.map_cons, catFiles, if_neg (by simpa using hplain), Prog.run_perform_bind rfl,
        if_neg hopens, Prog.run_perform_bind rfl]
      simp only [hhow]
      rw [Prog.run_perform_bind rfl]
      cases hcloses : f.closes with
      | false =>
          refine ⟨_, Prog.run_perform rfl, ?_⟩
          simp [callsFor, hcloses, CatState.log]
      | true =>
          obtain ⟨s, hrun, hcalls⟩ := ih hfiles (some f) (calls ++ [.openFile (trim f.path) f.fd] ++
            (f.copy 0 f.contents).1 ++ [.close f.fd true])
          refine ⟨s, hrun, ?_⟩
          simp [hcalls, callsFor, hcloses]

/-- **The calls of `cat`.** -/
theorem cat_calls (name : Text) (hlegal : ∀ f ∈ files, f.Legal) :
    cat (name :: files.map CatFile.path) files =
      some (if files = [] then [.cout "smash error: cat: not enough arguments\n".toList]
        else callsFor files) := by
  obtain ⟨s, hrun, hcalls⟩ := catFiles_run hlegal none
    (if files = [] then [.cout "smash error: cat: not enough arguments\n".toList] else [])
  have hlength : (name :: files.map CatFile.path).length = 1 ↔ files = [] := by simp
  simp only [cat, execute, List.tail_cons, hlength, hrun, Option.bind_eq_bind, Option.bind_some,
    Option.pure_def, hcalls]
  cases files with
  | nil => rfl
  | cons f files => rfl

/-- **What `cat` writes** is some of the contents, and all of them exactly if
no read and no write is short. -/
theorem output_callsFor (hlegal : ∀ f ∈ files, f.Legal) (hcloses : ∀ f ∈ files, f.closes = true) :
    (output (callsFor files)).Sublist (files.flatMap CatFile.contents) ∧
      (output (callsFor files) = files.flatMap CatFile.contents ↔ ∀ f ∈ files, f.Complete) := by
  induction files with
  | nil => simp [callsFor]
  | cons f files ih =>
      obtain ⟨hf, hfiles⟩ := List.forall_mem_cons.mp hlegal
      obtain ⟨hfclose, hfcloses⟩ := List.forall_mem_cons.mp hcloses
      obtain ⟨hsub, hiff⟩ := ih hfiles hfcloses
      have hcopy := hf.copying 0 f.contents
      have hout : output (callsFor (f :: files)) =
          output (f.copy 0 f.contents).1 ++ output (callsFor files) := by
        simp [callsFor, hfclose, CatCall.output]
      rw [hout, List.flatMap_cons, append_eq_iff_of_sublist hcopy.written hsub, hcopy.whole, hiff,
        List.forall_mem_cons]
      exact ⟨hcopy.written.append hsub, Iff.rfl⟩

theorem OneByOne.closes {calls : List CatCall} (h : OneByOne files calls) :
    ∀ fd, .close fd false ∉ calls := by
  intro fd hmem
  induction h with
  | nil => cases hmem
  | cons hmoves hrest ih =>
      simp only [List.mem_cons, List.mem_append, reduceCtorEq, false_or, CatCall.close.injEq,
        Bool.false_eq_true, and_false] at hmem
      obtain hmem | hmem := hmem
      · exact hmoves _ hmem
      · exact ih hmem

/-- **Each file is closed** exactly if no `close` fails. -/
theorem oneByOne_callsFor (hlegal : ∀ f ∈ files, f.Legal) :
    OneByOne files (callsFor files) ↔ ∀ f ∈ files, f.closes = true := by
  constructor
  · intro h
    have hno := h.closes
    clear h
    induction files with
    | nil => simp
    | cons f files ih =>
        cases hfclose : f.closes with
        | false => exact absurd (by simp [callsFor, hfclose]) (hno f.fd)
        | true =>
            refine List.forall_mem_cons.mpr ⟨hfclose, ih (List.forall_mem_cons.mp hlegal).2 ?_⟩
            exact fun fd hmem => hno fd (by simp [callsFor, hfclose, hmem])
  · intro hcloses
    induction files with
    | nil => exact .nil
    | cons f files ih =>
        obtain ⟨hf, hfiles⟩ := List.forall_mem_cons.mp hlegal
        obtain ⟨hfclose, hfcloses⟩ := List.forall_mem_cons.mp hcloses
        rw [callsFor, hfclose]
        exact .cons (hf.copying 0 f.contents).moves (ih hfiles hfcloses)

/-- **`cat` copies files completely** exactly if there is a file, and each read
and write of every file moves as much as there is room for. -/
theorem cat_copies_files (name : Text) {files : List CatFile} (hlegal : ∀ f ∈ files, f.Legal) :
    (∃ calls, cat (name :: files.map CatFile.path) files = some calls ∧
      CopiesFiles files calls) ↔
    files ≠ [] ∧ ∀ f ∈ files, f.Complete ∧ f.closes = true := by
  rw [cat_calls name hlegal]
  by_cases hne : files = []
  · refine iff_of_false ?_ fun h => h.1 hne
    rintro ⟨calls, hcalls, hcopies⟩
    obtain rfl := Option.some.inj hcalls
    obtain ⟨-, hclosed⟩ := hcopies
    rw [if_pos hne, hne] at hclosed
    cases hclosed
  rw [if_neg hne]
  constructor
  · rintro ⟨calls, hcalls, hcopies⟩
    obtain rfl := Option.some.inj hcalls
    have hcloses := (oneByOne_callsFor hlegal).mp hcopies.closed
    have hcomplete := (output_callsFor hlegal hcloses).2.mp hcopies.written
    exact ⟨hne, fun f hf => ⟨hcomplete f hf, hcloses f hf⟩⟩
  · rintro ⟨-, h⟩
    have hcloses : ∀ f ∈ files, f.closes = true := fun f hf => (h f hf).2
    exact ⟨_, rfl, (output_callsFor hlegal hcloses).2.mpr fun f hf => (h f hf).1,
      (oneByOne_callsFor hlegal).mpr hcloses⟩

end

/-- A file of two bytes, of which a read returns at most `most`. -/
def twoBytes (most : Nat) : CatFile where
  path := "a".toList
  contents := [1, 2]
  fd := 3
  read _ := some most
  write _ := some 20
  closes := true

theorem twoBytes_legal {most : Nat} (h : 1 ≤ most) : (twoBytes most).Legal where
  opens := by simp [twoBytes]
  plain := by simp [twoBytes]
  read _ := ⟨most, rfl, h⟩
  write _ := ⟨20, rfl, by decide⟩

/-- A file of more than a buffer. -/
def longFile : CatFile :=
  { twoBytes 20 with path := "b".toList, contents := List.replicate 25 7, fd := 4 }

theorem cat_copies_two_files : ∃ calls,
    cat ["cat".toList, "a".toList, "b".toList] [twoBytes 20, longFile] = some calls ∧
      CopiesFiles [twoBytes 20, longFile] calls := by
  have hshort : (twoBytes 20).Legal := twoBytes_legal (by decide)
  have hlong : longFile.Legal :=
    { opens := by simp [longFile]
      plain := by simp [longFile]
      read := fun _ => ⟨20, rfl, by decide⟩
      write := fun _ => ⟨20, rfl, by decide⟩ }
  have hlegal : ∀ f ∈ [twoBytes 20, longFile], f.Legal := by simp [hshort, hlong]
  have hcomplete : (twoBytes 20).Complete ∧ longFile.Complete :=
    ⟨fun i hi => ⟨Nat.min_le_left .., Nat.min_le_left ..⟩,
      fun i hi => ⟨Nat.min_le_left .., Nat.min_le_left ..⟩⟩
  refine (cat_copies_files "cat".toList hlegal).mpr ⟨by simp, fun f hf => ?_⟩
  simp only [List.mem_cons, List.not_mem_nil, or_false] at hf
  obtain rfl | rfl := hf
  · exact ⟨hcomplete.1, rfl⟩
  · exact ⟨hcomplete.2, rfl⟩

/-- **A short read ends the copy**: of two bytes, one arrives. -/
theorem cat_stops_at_short_read : (twoBytes 1).Legal ∧ ∃ calls,
    cat ["cat".toList, "a".toList] [twoBytes 1] = some calls ∧ output calls = [1] ∧
      ¬CopiesFiles [twoBytes 1] calls := by
  have hlegal : ∀ f ∈ [twoBytes 1], f.Legal := by
    simpa using twoBytes_legal le_rfl
  have hout : output (callsFor [twoBytes 1]) = [1] := by
    simp [callsFor, CatFile.copy, twoBytes, CatCall.output]
  refine ⟨twoBytes_legal le_rfl, callsFor [twoBytes 1], cat_calls "cat".toList hlegal, hout,
    fun h => ?_⟩
  have hwritten := h.written
  rw [hout] at hwritten
  cases hwritten

end OsAllHw.Shell
