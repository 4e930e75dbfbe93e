import OsAllHw.Lib.Bounded
import OsAllHw.Shell.Pipeline
import OsAllHw.Shell.Redirection

/-!
# Standard input, output and error

A command closes what it has opened, and descriptor 1 only between saving and
restoring it. So at every prompt, and when a pipe is made, descriptors 0 to 2
are open, whatever commands were run and whichever calls of theirs have failed.
-/

namespace OsAllHw.Shell

open Lib
open Pipeline (Ready)

/-- What is open stays open. -/
def StaysOpen (w w' : World) : Prop := ∀ fd, fileOf w.fds fd ≠ none → fileOf w'.fds fd ≠ none

section

variable {w w₁ w' : World} {t : Calls}

theorem SameTable.staysOpen (h : SameTable w w') : StaysOpen w w' :=
  fun fd hfd => by rwa [h]

theorem KeepsOpen.staysOpen (h : KeepsOpen w w') : StaysOpen w w' :=
  fun fd hfd => by rwa [h fd hfd]

theorem StaysOpen.trans (h : StaysOpen w w₁) (h' : StaysOpen w₁ w') : StaysOpen w w' :=
  fun fd hfd => h' fd (h fd hfd)

/-- A redirection that is given up leaves 1 open. -/
theorem prepareRedirectionCommand_staysOpen {cmdLine type : Text}
    (h : Executed (prepareRedirectionCommand cmdLine type) w t (-1) w') : StaysOpen w w' := by
  obtain ⟨n, w₁, t₁, rfl, h₁, hdup⟩ := executed_dup h
  obtain ⟨rfl, hfds₁⟩ | ⟨file, hfile, rfl, hfds₁⟩ := hdup
  · rw [if_pos rfl] at h₁
    obtain ⟨t₂, t₃, u, w₂, rfl, herror, hret⟩ := Exec.bind_iff.mp h₁
    obtain ⟨hsame, -, rfl⟩ := executed_error herror
    obtain ⟨rfl, -, rfl⟩ := Exec.ret_iff.mp hret
    intro fd hfd
    rwa [fds_of hsame, hfds₁]
  have hone' : (lowestFree w.fds : Int) ≠ 1 := by
    intro heq
    have hfree := fileOf_lowestFree w.fds
    rw [heq, hfile] at hfree
    cases hfree
  have hsaved : (lowestFree w.fds : Int) ≠ -1 := by omega
  rw [if_neg hsaved] at h₁
  obtain ⟨m, w₂, t₂, rfl, h₂, hclose⟩ := executed_close h₁
  rw [hfds₁, fileOf_setFile, if_neg (Ne.symm hone'), hfile] at hclose
  obtain ⟨hnone, -⟩ | ⟨-, rfl, hfds₂⟩ := hclose
  · cases hnone
  rw [if_neg (by simp)] at h₂
  obtain ⟨fd, w₃, t₃, rfl, h₃, hopen⟩ := executed_openFile h₂
  obtain ⟨rfl, hfds₃⟩ | ⟨target, rfl, -⟩ := hopen
  · rw [if_pos rfl] at h₃
    obtain ⟨t₄, t₅, u, w₄, rfl, herror, h₄⟩ := Exec.bind_iff.mp h₃
    obtain ⟨hsame, -, rfl⟩ := executed_error herror
    obtain ⟨k, w₅, t₆, rfl, hret, hdup2⟩ := executed_dup2 h₄
    obtain ⟨rfl, -, rfl⟩ := Exec.ret_iff.mp hret
    have htable₄ : ∀ fd, fileOf w₄.fds fd =
        if fd = 1 then none else if fd = lowestFree w.fds then some file else fileOf w.fds fd := by
      intro fd
      rw [fds_of hsame, hfds₃, hfds₂, Int.toNat_one, fileOf_setFile, fileOf_setFile, Nat.cast_one]
    obtain ⟨hnone, -⟩ | ⟨file', -, -, hfds₅⟩ := hdup2
    · rw [htable₄, if_neg hone', if_pos rfl] at hnone
      cases hnone
    · intro fd hfd
      rw [hfds₅, Int.toNat_one, fileOf_setFile, Nat.cast_one, htable₄]
      split
      · simp
      · split
        · simp
        · exact hfd
  · rw [if_neg (by simp)] at h₃
    obtain ⟨-, heq, -⟩ := Exec.ret_iff.mp h₃
    exact absurd heq.symm hsaved

/-- A command, with standard output saved in `n` or not. -/
theorem runCommand_staysOpen {isBackground : Bool} {cmdLine : Text} {fdStdout : Option Int}
    (hsaved : ∀ fd ∈ fdStdout, ∃ n file : Nat, fd = n ∧ n ≠ 1 ∧ fileOf w.fds n = some file)
    (h : Executed (runCommand isBackground cmdLine fdStdout) w t () w') :
    ∀ fd, fileOf w.fds fd ≠ none → fd ∉ fdStdout → fileOf w'.fds fd ≠ none := by
  obtain ⟨goesOn, w₁, t₁, t₂, hbody, -, rfl, -, hend⟩ := runCommand_does h
  intro fd hfd hother
  have hkept : fileOf w₁.fds fd ≠ none := by rwa [hbody.keeps fd hfd]
  cases fdStdout with
  | none =>
      cases goesOn with
      | true =>
          obtain ⟨-, -, rfl⟩ := Exec.ret_iff.mp hend
          exact hkept
      | false =>
          obtain ⟨-, -, rfl⟩ := Exec.ret_iff.mp hend
          exact hkept
  | some saved =>
      cases goesOn with
      | false =>
          obtain ⟨-, -, rfl⟩ := Exec.ret_iff.mp hend
          exact hkept
      | true =>
          obtain ⟨n, file, rfl, hn, hfile⟩ := hsaved saved rfl
          have hfile₁ : fileOf w₁.fds n = some file := by
            rw [hbody.keeps n (by simp [hfile]), hfile]
          obtain ⟨htable, -⟩ := undoRedirection_does hn hfile₁ hend
          rw [htable]
          split
          · simp
          · rw [if_neg fun heq => hother (by simp [heq])]
            exact hkept

/-- **No command line** closes what was open before it. -/
theorem executeCommand_staysOpen {cmdLine : Text}
    (h : Executed (executeCommand cmdLine) w t () w') : StaysOpen w w' := by
  obtain ⟨w₁, r, stray, w₂, t₁, hw₁, hp₁, rfl, h₁⟩ := executed_call h
  have hsame : SameTable w w₂ := by
    intro fd
    rw [perform_fds rfl hp₁, fds_of hw₁.surroundings]
  refine hsame.staysOpen.trans ?_
  split at h₁
  · exact (executePipeCommand_does ⟨.strayAmpersand, stray⟩ h₁).1.staysOpen
  split at h₁
  · intro fd hfd
    exact runCommand_staysOpen (by simp) h₁ fd hfd (by simp)
  obtain ⟨t₂, t₃, saved, w₃, rfl, hprepare, hrun⟩ := Exec.bind_iff.mp h₁
  obtain ⟨hgo, hcommand⟩ | ⟨hstop, rfl, rfl⟩ := Exec.when_iff.mp hrun
  · obtain ⟨-, ⟨rfl, -⟩ | ⟨rfl, -⟩ | ⟨-, n, file, target, rfl, hn, hone, hfree, htable⟩⟩ :=
      prepareRedirectionCommand_does ⟨.strayAmpersand, stray⟩ hprepare
    · exact absurd rfl hgo
    · exact absurd rfl hgo
    have hne : (n : Int) ≠ 1 := by omega
    intro fd hfd
    have hfdn : fd ≠ n := by
      rintro rfl
      exact hfd hfree
    refine runCommand_staysOpen ?_ hcommand fd ?_ ?_
    · rintro _ ⟨⟩
      exact ⟨n, file, rfl, hn, by rw [htable, if_neg hne, if_pos rfl]⟩
    · rw [htable, if_neg hfdn]
      split
      · simp
      · exact hfd
    · rintro ⟨⟩
      exact hfdn rfl
  · obtain rfl : saved = -1 := by simpa using hstop
    exact prepareRedirectionCommand_staysOpen hprepare

end

/-! ## The numbers of open files -/

/-- Every descriptor's file is numbered below `k`. -/
def Below (k : Nat) (fds : List (Option Nat)) : Prop :=
  ∀ fd file, fileOf fds fd = some file → file < k

theorem Below.setFile {k : Nat} {fds : List (Option Nat)} (h : Below k fds) (n : Nat)
    (file : Option Nat) (hfile : ∀ f ∈ file, f < k) : Below k (setFile fds n file) := by
  intro fd f hf
  rw [fileOf_setFile] at hf
  split at hf
  · exact hfile f hf
  · exact h fd f hf

theorem Below.mono {k k' : Nat} {fds : List (Option Nat)} (h : Below k fds) (hk : k ≤ k') :
    Below k' fds :=
  fun fd file hfile => (h fd file hfile).trans_le hk

/-- **A call** opens files with new numbers only. -/
theorem perform_below {op : Op} {w w' : World} {r : Reply} {a : Resp op}
    (hp : perform op w r = some (a, w')) (h : Below w.files w.fds) : Below w'.files w'.fds := by
  by_cases hop : Outward op
  · cases hop with
    | setPrevPwd pwd =>
        cases hp
        exact h
    | chdir path =>
        cases r with
        | directory cwd =>
            cases hp
            exact h
        | failed =>
            cases hp
            exact h
        | _ => cases hp
    | dup fd =>
        cases r with
        | done =>
            simp only [perform, World.dup] at hp
            split at hp
            · rename_i file hfile
              cases hp
              exact h.setFile _ _ (by rintro _ ⟨⟩; exact h fd file hfile)
            · cases hp
              exact h
        | failed =>
            cases hp
            exact h
        | _ => cases hp
    | dup2 oldFd newFd =>
        simp only [perform, World.dup2, Option.some.injEq] at hp
        split at hp
        · rename_i file hfile
          cases hp
          exact h.setFile _ _ (by rintro _ ⟨⟩; exact h oldFd file hfile)
        · cases hp
          exact h
    | close fd =>
        simp only [perform, World.close, Option.some.injEq] at hp
        split at hp
        · cases hp
          exact h.setFile _ _ (by simp)
        · cases hp
          exact h
    | openFile path =>
        cases r with
        | done =>
            cases hp
            show Below (w.files + 1) _
            exact (h.mono (by omega)).setFile _ _ (by simp)
        | failed =>
            cases hp
            exact h
        | _ => cases hp
    | pipe =>
        cases r with
        | done =>
            cases hp
            show Below (w.files + 2) _
            exact ((h.mono (by omega)).setFile _ _ (by simp)).setFile _ _ (by simp)
        | failed =>
            cases hp
            exact h
        | _ => cases hp
  · have hsame := (Prod.mk.inj (perform_surroundings hop hp)).2
    rw [(Prod.mk.inj hsame).1, (Prod.mk.inj hsame).2]
    exact h

theorem Pipeline.Ready.congr {w w' : World} (h : Ready w)
    (hsame : w'.surroundings = w.surroundings) : Ready w' := by
  have htable := (Prod.mk.inj hsame).2
  constructor
  · intro fd hfd
    rw [(Prod.mk.inj htable).1]
    exact h.standard fd hfd
  · rw [(Prod.mk.inj htable).1, (Prod.mk.inj htable).2]
    exact h.numbered

theorem start_ready (now : Int) (cwd : Text) : Ready (.start now cwd) := by
  constructor
  · intro fd hfd
    show fileOf [some 0, some 1, some 2] fd ≠ none
    interval_cases fd <;> decide
  · have hnone : Below 3 [] := by
      intro fd file hfile
      unfold fileOf at hfile
      split at hfile <;> cases hfile
    exact ((hnone.setFile 0 (some 0) (by simp)).setFile 1 (some 1) (by simp)).setFile 2 (some 2)
      (by simp)

/-! ## Every run -/

/-- What the shell relies on before `pipe`. -/
def beforePipe (op : Op) (w : World) : Prop := op = .pipe → Ready w

/-- Any reply, and any interruption. -/
def anyRules : Rules Op Resp World :=
  smash.rules (fun _ _ _ => True) (fun _ _ _ => True) beforePipe

theorem anyRules_executed {α : Type} {p : Code α} {w w' : World} {t : Calls} {a : α}
    (h : Exec anyRules p w t a w') : Executed p w t a w' :=
  h.mono (fun _ _ _ ⟨e, _, he⟩ => ⟨e, he⟩) fun _ _ _ _ ⟨r, _, hr⟩ => ⟨r, hr⟩

theorem ready_stable (op : Op) : Stable anyRules op Ready := by
  rintro w w' ⟨e, -, he⟩ h
  have he' : interrupt (some op) w e = some w' := he
  exact h.congr (interrupt_frame he').1

/-- The calls that are not `pipe`. -/
abbrev NoPipe (op : Op) : Prop := ∀ w, anyRules.pre op w

theorem noPipe {op : Op} (h : op ≠ .pipe) : NoPipe op := fun _ heq => absurd heq h

theorem Aside.noPipe {op : Op} (h : Aside op) : NoPipe op := by
  rintro w rfl
  cases h

theorem catFiles_noPipe (args : List Text) : (catFiles args).All NoPipe := by
  induction args with
  | nil => trivial
  | cons arg args ih =>
      unfold catFiles
      split
      · trivial
      refine .perform_bind (noPipe (by simp)) fun fd => ?_
      split
      · exact .perform (noPipe (by simp))
      refine .perform_bind (noPipe (by simp)) fun how => ?_
      cases how with
      | readFailed => exact .perform (noPipe (by simp))
      | writeFailed => exact .perform (noPipe (by simp))
      | copied =>
          refine .perform_bind (noPipe (by simp)) fun n => ?_
          split
          · exact .perform (noPipe (by simp))
          · exact ih

theorem undoRedirection_noPipe (fd : Int) : (undoRedirection fd).All NoPipe := by
  refine .perform_bind (noPipe (by simp)) fun n => ?_
  split
  · exact .perform (noPipe (by simp))
  refine .perform_bind (noPipe (by simp)) fun n => ?_
  split
  · exact .perform (noPipe (by simp))
  · trivial

theorem prepareRedirectionCommand_noPipe (cmdLine type : Text) :
    (prepareRedirectionCommand cmdLine type).All NoPipe := by
  refine .perform_bind (noPipe (by simp)) fun fd => ?_
  split
  · exact .perform_bind (noPipe (by simp)) fun _ => trivial
  refine .perform_bind (noPipe (by simp)) fun n => ?_
  split
  · exact .perform_bind (noPipe (by simp)) fun _ =>
      .perform_bind (noPipe (by simp)) fun _ => trivial
  refine .perform_bind (noPipe (by simp)) fun n => ?_
  split
  · exact .perform_bind (noPipe (by simp)) fun _ =>
      .perform_bind (noPipe (by simp)) fun _ => trivial
  · trivial

theorem runCommand_noPipe (isBackground : Bool) (cmdLine : Text) (fdStdout : Option Int) :
    (runCommand isBackground cmdLine fdStdout).All NoPipe := by
  refine .bind ((createCommand_aside cmdLine).mono fun _ => Aside.noPipe) fun cmd => ?_
  refine .bind ?_ fun goesOn => ?_
  · unfold runKind
    split
    · exact (launch_aside ..).mono fun _ => Aside.noPipe
    · refine .bind ?_ fun _ => trivial
      by_cases hcat : kindOf cmdLine = .cat
      · rw [hcat]
        exact catFiles_noPipe _
      · exact (execute_aside _ hcat).mono fun _ => Aside.noPipe
  · split
    · exact undoRedirection_noPipe _
    · trivial

/-- Behind the `pipe` there is no other. -/
theorem executePipeCommand_noPipe (cmdLine type : Text) (w : World) (hw : Ready w) :
    Holds anyRules (executePipeCommand cmdLine type) (fun _ _ => True) w := by
  have hwhen : ∀ (c : Prop) [Decidable c] (msg : String),
      (Prog.when c (error msg)).All NoPipe :=
    fun c _ msg => .when fun _ => .perform (noPipe (by simp))
  unfold executePipeCommand
  rw [Prog.perform_bind]
  intro w' hw'
  refine ⟨fun _ => (ready_stable _).star hw' hw, fun p w'' _ => Holds.of_all ?_⟩
  match p with
  | none => exact .perform (noPipe (by simp))
  | some (fd0, fd1) =>
      refine .bind ((createCommand_aside _).mono fun _ => Aside.noPipe) fun _ => ?_
      refine .bind ((createCommand_aside _).mono fun _ => Aside.noPipe) fun _ => ?_
      refine .perform_bind (noPipe (by simp)) fun res => .bind (hwhen _ _) fun _ => ?_
      refine .perform_bind (noPipe (by simp)) fun res2 => .bind (hwhen _ _) fun _ => ?_
      refine .perform_bind (noPipe (by simp)) fun n => ?_
      split
      · exact .perform (noPipe (by simp))
      refine .perform_bind (noPipe (by simp)) fun n => ?_
      split
      · exact .perform (noPipe (by simp))
      refine .perform_bind (noPipe (by simp)) fun how => ?_
      split
      · exact .perform (noPipe (by simp))
      refine .perform_bind (noPipe (by simp)) fun how => ?_
      split
      · exact .perform (noPipe (by simp))
      · trivial

/-- A call before which nothing can go wrong. -/
theorem edge_ready {op : Op} (hop : ¬Outward op) : Edge anyRules Ready op fun _ => Ready :=
  fun _ hw => ⟨fun _ => hw, fun _ _ ⟨_, _, hp⟩ => hw.congr (perform_surroundings hop hp)⟩

theorem executeCommand_pre (cmdLine : Text) (w : World) (hw : Ready w) :
    Holds anyRules (executeCommand cmdLine) (fun _ _ => True) w := by
  unfold executeCommand
  rw [Prog.perform_bind]
  refine (edge_ready (by rintro ⟨⟩)).holds (ready_stable _) hw fun stray w' hw' => ?_
  split
  · exact executePipeCommand_noPipe _ _ w' hw'
  split
  · exact Holds.of_all (runCommand_noPipe ..)
  · exact Holds.of_all ((prepareRedirectionCommand_noPipe ..).bind fun fd =>
      .when fun _ => runCommand_noPipe ..)

/-- What the execution of any program does to the numbers. -/
theorem executed_below {α : Type} {p : Code α} {w w' : World} {t : Calls} {a : α}
    (h : Executed p w t a w') (hw : Below w.files w.fds) : Below w'.files w'.fds := by
  induction h with
  | ret a w => exact hw
  | env he _ ih =>
      obtain ⟨e, he⟩ := he
      have hsame := (Prod.mk.inj (interrupt_frame he).1).2
      refine ih ?_
      rw [(Prod.mk.inj hsame).1, (Prod.mk.inj hsame).2]
      exact hw
  | call hs _ ih =>
      obtain ⟨r, hp⟩ := hs
      exact ih (perform_below hp hw)

/-- The last lines of a turn. -/
def lower : Option Nat → Code Unit
  | some cmd => call (.setForeground cmd false)
  | none => return

theorem lower_aside (cmd : Option Nat) : (lower cmd).All Aside := by
  cases cmd with
  | none => trivial
  | some cmd => exact .perform rfl

theorem iteration_eq (cmdLine : Text) :
    iteration cmdLine = (do
      call .removeFinishedJobs
      executeCommand cmdLine
      let cmd ← call .getCommand
      lower cmd) := rfl

/-- **One turn of the main loop** leaves the shell ready for the next. -/
theorem iteration_ready (cmdLine : Text) (w : World) (hw : Ready w) :
    Holds anyRules (iteration cmdLine) (fun _ => Ready) w := by
  refine Holds.of_exec ?_ fun t a w' hexec => ?_
  · rw [iteration_eq, Prog.perform_bind]
    refine (edge_ready (by rintro ⟨⟩)).holds (ready_stable _) hw fun _ w₁ hw₁ => ?_
    refine (executeCommand_pre cmdLine w₁ hw₁).bind fun _ w₂ _ => Holds.of_all ?_
    exact .perform_bind (noPipe (by simp)) fun cmd => (lower_aside cmd).mono fun _ => Aside.noPipe
  · have hrun := anyRules_executed hexec
    rw [iteration_eq] at hrun
    refine ⟨fun fd hfd => ?_, executed_below hrun hw.numbered⟩
    obtain ⟨u₁, w₁, t₁, t₂, -, hw₁, -, h₁⟩ := aside_bind (.perform rfl) hrun
    obtain ⟨t₃, t₄, u₂, w₂, -, h₂, h₃⟩ := Exec.bind_iff.mp h₁
    obtain ⟨cmd, w₃, t₅, t₆, -, hw₃, -, h₄⟩ := aside_bind (.perform rfl) h₃
    obtain ⟨hw', -⟩ := aside_frame (lower_aside cmd) h₄
    rw [hw', hw₃]
    refine executeCommand_staysOpen h₂ fd ?_
    rw [hw₁]
    exact hw.standard fd hfd

/-- **At every prompt, and before every `pipe`,** of every run of the shell:
descriptors 0 to 2 are open, and no descriptor has the number of a file that is
still to be opened. -/
theorem standard_files_open {now : Int} {cwd : Text} {es : List Event} {c : Config}
    (hrun : smash.run (.start now cwd) es = .ok c)
    (hwhere : c.prog.head = none ∨ c.prog.head = some .pipe) : Ready c.state := by
  have hstart : Loop.Sound anyRules Ready (Loop.init (.start now cwd)) := start_ready now cwd
  have hsound : Loop.Sound anyRules Ready c := by
    refine Loop.run_sound (fun cmdLine w hw _ => iteration_ready cmdLine w hw) ?_ hstart
      (Along.of_forall (P := Loop.Meets (fun _ _ _ => True) fun _ _ _ => True) ?_ es _) hrun
    · rintro e w w' hw - he
      have he' : interrupt none w e = some w' := he
      exact hw.congr (interrupt_frame he').1
    · rintro c (i | r | e)
      · trivial
      · exact fun _ _ => trivial
      · trivial
  obtain hnone | hpipe := hwhere
  · obtain ⟨w, p⟩ := c
    cases p with
    | ret a => exact hsound
    | call op next => cases hnone
  · exact hsound.pre hpipe rfl

/-- `pwd > f`, where `f` cannot be opened. -/
def failedRedirection : List Event :=
  [.input "pwd > f".toList, .statement (.finished []), .statement .done, .statement .done,
    .statement .done, .statement .failed, .statement .done, .statement .done, .statement .done]

set_option maxRecDepth 10000 in
theorem standard_files_open_failed :
    ∃ c, smash.run (.start 0 "/".toList) failedRedirection = .ok c ∧ Ready c.state := by
  have hview : (Loop.view (smash.run (.start 0 "/".toList) failedRedirection)).map Prod.fst =
      some none := by decide +kernel
  obtain ⟨v, hv, hhead⟩ := Option.map_eq_some_iff.mp hview
  obtain ⟨c, hc, hhead', -⟩ := Loop.exists_of_view hv
  exact ⟨c, hc, standard_files_open hc (.inl (hhead'.trans hhead))⟩

end OsAllHw.Shell
