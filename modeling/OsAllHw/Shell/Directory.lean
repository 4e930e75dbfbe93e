import OsAllHw.Shell.Executions

/-!
# `cd` and its history

`CdCommand::execute` remembers the directory it leaves: for a path after the
`chdir`, for `-` before it. One inversion lemma (`cd_does`) says what a `cd`
can do; a run of them is a list of turns.
-/

namespace OsAllHw.Shell

open Lib

/-- The errors of `cd`: too many arguments, no previous directory, and a
`chdir` that failed. -/
def cdErrors : List Text :=
  ["smash error: cd: OLDPWD not set".toList, "smash error: cd: too many arguments".toList,
    "smash error: chdir failed".toList]

def CdReports (t : Calls) : Prop := ∃ msg ∈ cdErrors, Wrote msg t

/-- `chdir` failed for some path. -/
def ChdirFailed (t : Calls) : Prop := ∃ path, ⟨.chdir path, -1⟩ ∈ t

/-- The directories are as they were. -/
def SameDirectories (w w' : World) : Prop :=
  w'.cwd = w.cwd ∧ w'.shell.prevPwd = w.shell.prevPwd

/-- What a `cd` with some words can do. -/
inductive CdDoes (w : World) (t : Calls) (w' : World) : List Text → Prop where
  | nothing (h : SameDirectories w w') (hquiet : ¬CdReports t) : CdDoes w t w' []
  | refused (words) (h : SameDirectories w w') (herror : CdReports t) (hno : ¬ChdirFailed t) :
      CdDoes w t w' words
  | failed (arg) (harg : arg ≠ "-".toList) (h : SameDirectories w w') (herror : CdReports t) :
      CdDoes w t w' [arg]
  /-- The previous directory is forgotten. -/
  | lost (hcwd : w'.cwd = w.cwd) (hprev : w'.shell.prevPwd = w.cwd) (herror : CdReports t)
      (hfailed : ChdirFailed t) : CdDoes w t w' ["-".toList]
  | moved (arg) (hprev : w'.shell.prevPwd = w.cwd) (hquiet : ¬CdReports t)
      (hno : ¬ChdirFailed t) : CdDoes w t w' [arg]

theorem sameDirectories_of {w w' : World} (h : w'.surroundings = w.surroundings) :
    SameDirectories w w' :=
  Prod.mk.inj (Prod.mk.inj h).1

/-- Only `-` itself is `-` without a background sign. -/
theorem removeBackgroundSign_eq_dash {arg : Text} :
    removeBackgroundSign arg = "-".toList ↔ arg = "-".toList := by
  constructor
  · intro h
    unfold removeBackgroundSign at h
    split at h
    · have := congrArg List.getLast? h
      simp at this
    · exact h
  · rintro rfl
    decide

section

variable {w w' : World} {t t' : Calls} {words : List Text} {arg prevPwd : Text}

theorem cdReports_append : CdReports (t ++ t') ↔ CdReports t ∨ CdReports t' := by
  simp only [CdReports, Wrote, List.mem_append, and_or_left, exists_or]

theorem chdirFailed_append : ChdirFailed (t ++ t') ↔ ChdirFailed t ∨ ChdirFailed t' := by
  simp only [ChdirFailed, List.mem_append, exists_or]

/-- A call that is no message adds no error. -/
theorem cdReports_cons {op : Op} {r : Resp op} (h : ∀ msg, op ≠ .error msg) :
    CdReports (⟨op, r⟩ :: t) ↔ CdReports t := by
  refine exists_congr fun msg => and_congr_right fun _ => ?_
  simp only [Wrote, List.mem_cons]
  exact or_iff_right fun he => h msg (congrArg Sigma.fst he).symm

theorem chdirFailed_cons {op : Op} {r : Resp op} (h : ∀ path, op ≠ .chdir path) :
    ChdirFailed (⟨op, r⟩ :: t) ↔ ChdirFailed t := by
  refine exists_congr fun path => ?_
  rw [List.mem_cons]
  exact or_iff_right fun he => h path (congrArg Sigma.fst he).symm

theorem not_cdReports_nil : ¬CdReports [] := by simp [CdReports, Wrote]

theorem not_chdirFailed_nil : ¬ChdirFailed [] := by simp [ChdirFailed]

/-- One of `cd`'s errors and nothing else. -/
theorem cd_error {msg : Text} (hmsg : msg ∈ cdErrors) (h : Executed (call (.error msg)) w t () w') :
    SameDirectories w w' ∧ CdReports t ∧ ¬ChdirFailed t := by
  obtain ⟨hsame, -, rfl⟩ := executed_error h
  refine ⟨sameDirectories_of hsame, ⟨msg, hmsg, List.mem_singleton.mpr rfl⟩, ?_⟩
  rw [chdirFailed_cons (by simp)]
  exact not_chdirFailed_nil

/-- The message of `getcwd` is none of `cd`'s errors. -/
theorem getcwd_check {c : Prop} [Decidable c]
    (h : Executed (.when c (error "smash error: getcwd failed")) w t () w') :
    SameDirectories w w' ∧ ¬CdReports t ∧ ¬ChdirFailed t := by
  obtain ⟨-, h⟩ | ⟨-, rfl, rfl⟩ := Exec.when_iff.mp h
  · obtain ⟨hsame, -, rfl⟩ := executed_error h
    refine ⟨sameDirectories_of hsame, ?_, ?_⟩
    · rintro ⟨msg, hmsg, hwrote⟩
      have : msg = "smash error: getcwd failed".toList := by simpa [Wrote] using hwrote
      exact absurd (this ▸ hmsg) (by decide)
    · rw [chdirFailed_cons (by simp)]
      exact not_chdirFailed_nil
  · exact ⟨⟨rfl, rfl⟩, not_cdReports_nil, not_chdirFailed_nil⟩

/-- What was done counts from any world with the same directories, and with any
calls that report and fail alike. -/
theorem CdDoes.congr {w₁ : World} (hdoes : CdDoes w₁ t w' words) (hsame : SameDirectories w w₁)
    (hreports : CdReports t' ↔ CdReports t) (hfailed : ChdirFailed t' ↔ ChdirFailed t) :
    CdDoes w t' w' words := by
  cases hdoes with
  | nothing h hquiet =>
      exact .nothing ⟨h.1.trans hsame.1, h.2.trans hsame.2⟩ (mt hreports.mp hquiet)
  | refused _ h herror hno =>
      exact .refused _ ⟨h.1.trans hsame.1, h.2.trans hsame.2⟩ (hreports.mpr herror)
        (mt hfailed.mp hno)
  | failed arg harg h herror =>
      exact .failed arg harg ⟨h.1.trans hsame.1, h.2.trans hsame.2⟩ (hreports.mpr herror)
  | lost hcwd hprev herror hfail =>
      exact .lost (hcwd.trans hsame.1) (hprev.trans hsame.1) (hreports.mpr herror)
        (hfailed.mpr hfail)
  | moved arg hprev hquiet hno =>
      exact .moved arg (hprev.trans hsame.1) (mt hreports.mp hquiet) (mt hfailed.mp hno)

theorem changeDir_does (h : Executed (changeDir w.shell.prevPwd arg) w t () w') :
    CdDoes w t w' [arg] := by
  obtain ⟨w₁, r₁, cur, w₁', t₁, hw₁, hp₁, rfl, h₁⟩ := executed_call h
  cases hp₁
  obtain ⟨t₂, t₃, u, w₂, rfl, hcheck, h₂⟩ := Exec.bind_iff.mp h₁
  obtain ⟨hw₂, hquiet, hno⟩ := getcwd_check hcheck
  have hsame₁ := sameDirectories_of hw₁.surroundings
  -- what was called so far adds nothing
  have hreports : CdReports (⟨.getcwd, w₁.cwd⟩ :: (t₂ ++ t₃)) ↔ CdReports t₃ := by
    rw [cdReports_cons (by simp), cdReports_append, or_iff_right hquiet]
  have hfailed : ChdirFailed (⟨.getcwd, w₁.cwd⟩ :: (t₂ ++ t₃)) ↔ ChdirFailed t₃ := by
    rw [chdirFailed_cons (by simp), chdirFailed_append, or_iff_right hno]
  have hsame₂ : SameDirectories w w₂ := ⟨hw₂.1.trans hsame₁.1, hw₂.2.trans hsame₁.2⟩
  split at h₂
  · rename_i hdash
    obtain ⟨w₃, r₃, a₃, w₃', t₄, hw₃, hp₃, rfl, h₃⟩ := executed_call h₂
    cases hp₃
    obtain ⟨w₅, r₅, res, w₆, t₆, hw₅, hp₅, rfl, h₅⟩ := executed_call h₃
    have hsame₃ := sameDirectories_of hw₃.surroundings
    have hsame₅ := sameDirectories_of hw₅.surroundings
    have hcwd : w₅.cwd = w.cwd := hsame₅.1.trans (hsame₃.1.trans hsame₂.1)
    have hprev : w₅.shell.prevPwd = w.cwd := hsame₅.2.trans hsame₁.1
    rw [removeBackgroundSign_eq_dash.mp hdash]
    cases r₅ with
    | directory d =>
        cases hp₅
        obtain ⟨rfl, -, rfl⟩ := Exec.ret_iff.mp h₅
        refine .moved _ hprev ?_ ?_
        · rw [hreports, cdReports_cons (by simp), cdReports_cons (by simp)]
          exact not_cdReports_nil
        · rw [hfailed, chdirFailed_cons (by simp)]
          simp [ChdirFailed]
    | failed =>
        cases hp₅
        obtain ⟨hsame, hmsg, -⟩ := cd_error (by decide) h₅
        refine .lost (hsame.1.trans hcwd) (hsame.2.trans hprev) ?_ ?_
        · rw [hreports, cdReports_cons (by simp), cdReports_cons (by simp)]
          exact hmsg
        · rw [hfailed]
          exact ⟨w.shell.prevPwd, by simp⟩
    | _ => cases hp₅
  · rename_i hdash
    have harg : arg ≠ "-".toList := fun he => hdash (removeBackgroundSign_eq_dash.mpr he)
    obtain ⟨w₃, r₃, res, w₄, t₄, hw₃, hp₃, rfl, h₃⟩ := executed_call h₂
    have hsame₃ := sameDirectories_of hw₃.surroundings
    cases r₃ with
    | directory d =>
        cases hp₃
        obtain ⟨w₅, r₅, hw₅, hp₅, rfl⟩ := executed_last h₃
        cases hp₅
        refine .moved _ hsame₁.1 ?_ ?_
        · rw [hreports, cdReports_cons (by simp), cdReports_cons (by simp)]
          exact not_cdReports_nil
        · rw [hfailed]
          simp [ChdirFailed]
    | failed =>
        cases hp₃
        obtain ⟨hsame, hmsg, -⟩ := cd_error (by decide) h₃
        refine .failed _ harg ⟨?_, ?_⟩ ?_
        · exact hsame.1.trans (hsame₃.1.trans hsame₂.1)
        · exact hsame.2.trans (hsame₃.2.trans hsame₂.2)
        · rw [hreports, cdReports_cons (by simp)]
          exact hmsg
    | _ => cases hp₃

end

/-- **What a `cd` can do.** -/
theorem cd_does {name : Text} {words : List Text} {w w' : World} {t : Calls}
    (h : Executed (cdCommand (name :: words)) w t () w') : CdDoes w t w' words := by
  unfold cdCommand at h
  split at h
  · rename_i hone
    obtain rfl : words = [] := by simpa using hone
    obtain ⟨rfl, -, rfl⟩ := Exec.ret_iff.mp h
    exact .nothing ⟨rfl, rfl⟩ not_cdReports_nil
  rename_i hmore
  obtain ⟨w₁, t₁, hw₁, rfl, h₁⟩ := executed_get h
  have hsame₁ := sameDirectories_of hw₁.surroundings
  have hreports : CdReports (⟨.get, w₁.shell⟩ :: t₁) ↔ CdReports t₁ := cdReports_cons (by simp)
  have hfailed : ChdirFailed (⟨.get, w₁.shell⟩ :: t₁) ↔ ChdirFailed t₁ := chdirFailed_cons (by simp)
  split at h₁
  · obtain ⟨hsame, hmsg, hno⟩ := cd_error (by decide) h₁
    exact .refused _ ⟨hsame.1.trans hsame₁.1, hsame.2.trans hsame₁.2⟩ (hreports.mpr hmsg)
      (mt hfailed.mp hno)
  obtain ⟨t₂, t₃, u, w₂, rfl, hmany, h₂⟩ := Exec.bind_iff.mp h₁
  obtain ⟨hlong, hmany⟩ | ⟨hshort, rfl, rfl⟩ := Exec.when_iff.mp hmany
  · obtain ⟨htwo, -⟩ | ⟨-, rfl, rfl⟩ := Exec.when_iff.mp h₂
    · omega
    obtain ⟨hsame, hmsg, hno⟩ := cd_error (by decide) hmany
    rw [List.append_nil] at hreports hfailed ⊢
    exact .refused _ ⟨hsame.1.trans hsame₁.1, hsame.2.trans hsame₁.2⟩ (hreports.mpr hmsg)
      (mt hfailed.mp hno)
  · obtain ⟨htwo, hdir⟩ | ⟨htwo, -⟩ := Exec.when_iff.mp h₂
    · obtain ⟨arg, rfl⟩ : ∃ arg, words = [arg] := List.length_eq_one_iff.mp (by simpa using htwo)
      exact (changeDir_does hdir).congr hsame₁ hreports hfailed
    · rw [List.length_cons] at hmore hshort htwo
      omega

/-! ## A history -/

/-- One `cd` of a run, with any words. -/
structure CdTurn where
  words : List Text
  before : World
  calls : Calls
  after : World
  executed : Executed (cdCommand ("cd".toList :: words)) before calls () after

namespace CdTurn

/-- What is to hold after each turn. -/
def Right (c : CdTurn) : Prop :=
  (c.after.cwd ≠ c.before.cwd → c.after.shell.prevPwd = c.before.cwd) ∧
  (CdReports c.calls → SameDirectories c.before c.after)

/-- A `cd -` whose `chdir` fails, with a previous directory that is another one
than the current. -/
def Loses (c : CdTurn) : Prop :=
  c.words = ["-".toList] ∧ ChdirFailed c.calls ∧ c.before.shell.prevPwd ≠ c.before.cwd

/-- A `cd -` without an error, whose `chdir` led to the directory it was given. -/
structure Returns (c : CdTurn) : Prop where
  words : c.words = ["-".toList]
  quiet : ¬CdReports c.calls
  arrives : c.after.cwd = c.before.shell.prevPwd

theorem right_iff (c : CdTurn) : c.Right ↔ ¬c.Loses := by
  obtain ⟨words, before, calls, after, executed⟩ := c
  simp only [Right, Loses]
  have hdoes := cd_does executed
  cases hdoes with
  | nothing h hquiet =>
      exact iff_of_true ⟨fun hmoved => absurd h.1 hmoved, fun _ => h⟩ (by simp)
  | refused _ h herror hno =>
      exact iff_of_true ⟨fun hmoved => absurd h.1 hmoved, fun _ => h⟩ fun hloses => hno hloses.2.1
  | failed arg harg h herror =>
      refine iff_of_true ⟨fun hmoved => absurd h.1 hmoved, fun _ => h⟩ fun hloses => harg ?_
      exact List.cons.inj hloses.1 |>.1
  | lost hcwd hprev herror hfailed =>
      -- the directory stays, but it is the previous one from now on
      constructor
      · rintro ⟨-, hright⟩ ⟨-, -, hother⟩
        exact hother ((hright herror).2.symm.trans hprev)
      · intro hno
        have hprev' : before.shell.prevPwd = before.cwd := by
          by_contra hother
          exact hno ⟨rfl, hfailed, hother⟩
        exact ⟨fun hmoved => absurd hcwd hmoved, fun _ => ⟨hcwd, hprev.trans hprev'.symm⟩⟩
  | moved arg hprev hquiet hno =>
      exact iff_of_true ⟨fun _ => hprev, fun herror => absurd herror hquiet⟩
        fun hloses => hno hloses.2.1

/-- A `cd -` that returns makes the directory it leaves the previous one. -/
theorem Returns.prevPwd {c : CdTurn} (h : c.Returns) :
    c.after.shell.prevPwd = c.before.cwd := by
  have hdoes := cd_does c.executed
  rw [h.words] at hdoes
  cases hdoes with
  | refused _ _ herror _ => exact absurd herror h.quiet
  | failed _ _ _ herror => exact absurd herror h.quiet
  | lost _ _ herror _ => exact absurd herror h.quiet
  | moved _ hprev _ _ => exact hprev

end CdTurn

/-- Turns after each other: nothing in between moves the shell. -/
def CdRun (cs : List CdTurn) : Prop := cs.IsChain fun c d => SameDirectories c.after d.before

/-- **The history of directories** in a run of `cd`s: it is right after each of
them exactly when none loses it; and two `cd -` in a row that return restore
both directories. -/
theorem directory_history (cs : List CdTurn) (hrun : CdRun cs) :
    ((∀ c ∈ cs, c.Right) ↔ ∀ c ∈ cs, ¬c.Loses) ∧
    ∀ c d, [c, d] <:+: cs → c.Returns → d.Returns → SameDirectories c.before d.after := by
  refine ⟨forall₂_congr fun c _ => c.right_iff, fun c d hin hc hd => ?_⟩
  have hbetween : SameDirectories c.after d.before := by
    have := hrun.infix hin
    simpa using this
  constructor
  · exact hd.arrives.trans (hbetween.2.trans hc.prevPwd)
  · exact hd.prevPwd.trans (hbetween.1.trans hc.arrives)

/-- The shell in `cwd`, with `prevPwd` before. -/
def inDirectory (cwd prevPwd : Text) : World :=
  (World.start 0 cwd).setVars fun v => { v with prevPwd := prevPwd }

/-- What `cd -` calls there, up to the answer of `chdir`. -/
def dashCalls (w : World) (answer : Int) : Calls :=
  [⟨.get, w.shell⟩, ⟨.getcwd, w.cwd⟩, ⟨.setPrevPwd w.cwd, ()⟩, ⟨.chdir w.shell.prevPwd, answer⟩]

/-- The replies to a `cd -`. -/
def dashReplies (chdir : Reply) : List Reply := [.done, .done, .done, chdir]

set_option maxRecDepth 10000 in
/-- From `/b` back to `/a`. -/
def backToA : CdTurn where
  words := ["-".toList]
  before := inDirectory "/b".toList "/a".toList
  calls := dashCalls (inDirectory "/b".toList "/a".toList) 0
  after := inDirectory "/a".toList "/b".toList
  executed :=
    have hfollow : (cdCommand ["cd".toList, "-".toList]).follow perform
        (inDirectory "/b".toList "/a".toList) (dashReplies (.directory "/a".toList)) =
        some (dashCalls (inDirectory "/b".toList "/a".toList) 0, (),
          inDirectory "/a".toList "/b".toList) := by decide +kernel
    executed_of_follow hfollow

set_option maxRecDepth 10000 in
/-- And to `/b` again. -/
def backToB : CdTurn where
  words := ["-".toList]
  before := inDirectory "/a".toList "/b".toList
  calls := dashCalls (inDirectory "/a".toList "/b".toList) 0
  after := inDirectory "/b".toList "/a".toList
  executed :=
    have hfollow : (cdCommand ["cd".toList, "-".toList]).follow perform
        (inDirectory "/a".toList "/b".toList) (dashReplies (.directory "/b".toList)) =
        some (dashCalls (inDirectory "/a".toList "/b".toList) 0, (),
          inDirectory "/b".toList "/a".toList) := by decide +kernel
    executed_of_follow hfollow

theorem directory_history_back :
    (backToA.Right ∧ backToB.Right) ∧ SameDirectories backToA.before backToB.after := by
  have hquiet : ∀ w, ¬CdReports (dashCalls w 0) := by simp [CdReports, Wrote, dashCalls]
  have hno : ∀ w, ¬ChdirFailed (dashCalls w 0) := by simp [ChdirFailed, dashCalls]
  obtain ⟨hright, hback⟩ := directory_history [backToA, backToB]
    (by simpa [CdRun] using ⟨rfl, rfl⟩)
  refine ⟨?_, hback _ _ List.infix_rfl ⟨rfl, hquiet _, rfl⟩ ⟨rfl, hquiet _, rfl⟩⟩
  simpa using hright.mpr fun c hc hloses => by
    obtain rfl | rfl : c = backToA ∨ c = backToB := by simpa using hc
    · exact hno _ hloses.2.1
    · exact hno _ hloses.2.1

set_option maxRecDepth 10000 in
/-- In `/b`, where `/a` has been removed: `cd -` forgets it and stays. -/
def stuckInB : CdTurn where
  words := ["-".toList]
  before := inDirectory "/b".toList "/a".toList
  calls := dashCalls (inDirectory "/b".toList "/a".toList) (-1) ++
    [⟨.error "smash error: chdir failed".toList, ()⟩]
  after := inDirectory "/b".toList "/b".toList
  executed :=
    have hfollow : (cdCommand ["cd".toList, "-".toList]).follow perform
        (inDirectory "/b".toList "/a".toList) (dashReplies .failed ++ [.done]) =
        some (dashCalls (inDirectory "/b".toList "/a".toList) (-1) ++
          [⟨.error "smash error: chdir failed".toList, ()⟩], (),
          inDirectory "/b".toList "/b".toList) := by decide +kernel
    executed_of_follow hfollow

theorem directory_lost :
    CdReports stuckInB.calls ∧ stuckInB.before.shell.prevPwd = "/a".toList ∧
    stuckInB.after.shell.prevPwd = "/b".toList ∧ ¬stuckInB.Right := by
  have herror : CdReports stuckInB.calls :=
    ⟨"smash error: chdir failed".toList, by decide, by simp [Wrote, stuckInB]⟩
  refine ⟨herror, rfl, rfl, fun hright => ?_⟩
  exact absurd (hright.2 herror).2 (by decide)

end OsAllHw.Shell
