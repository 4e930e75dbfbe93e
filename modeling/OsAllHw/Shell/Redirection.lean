import OsAllHw.Shell.Descriptors

/-!
# Redirections

`executeCommand` saves descriptor 1 at its beginning and restores it in its last
lines. What each part in between does to the table is one lemma; the paths that
do not reach the last lines are the ones on which the redirection stays.
-/

namespace OsAllHw.Shell

open Lib

/-! ## What may go wrong -/

/-- `cat` stopped in the middle of a file. -/
def CatFails (t : Calls) : Prop := ∃ fd how, ⟨.copyOut fd, how⟩ ∈ t ∧ how ≠ .copied

/-- Standard output was saved and closed, and the target did not open. -/
def TargetFails (t : Calls) : Prop :=
  ∃ first fd path rest,
    t = first :: ⟨.dup 1, fd⟩ :: ⟨.close 1, 0⟩ :: ⟨.openFile path, -1⟩ :: rest

/-- The wait for a command in the foreground saw it stop, or failed. -/
def WaitLost (t : Calls) : Prop := ∃ pid how, ⟨.waitpid pid true, how⟩ ∈ t ∧ how ≠ .ended

/-- The kinds of command that `executeCommand` forks for. -/
def Kind.Launched (kind : Kind) : Prop := kind = .external ∨ kind = .timeout

/-- A redirected command of these kinds, and such a wait. -/
def LeftWaiting (cmdLine : Text) (t : Calls) : Prop :=
  isPipeCommand cmdLine = none ∧ ∃ type, isRedirectionCommand cmdLine = some type ∧
    (kindOf (before type cmdLine)).Launched ∧ WaitLost t

/-- Descriptor 1 is the file it was, and nothing is open that was not. -/
def Undone (w w' : World) : Prop :=
  fileOf w'.fds 1 = fileOf w.fds 1 ∧ ∀ fd, fileOf w.fds fd = none → fileOf w'.fds fd = none

/-- What a command does to the table: nothing, unless `cat` fails. -/
structure Body (t : Calls) (w w' : World) : Prop where
  keeps : KeepsOpen w w'
  leaks : CatFails t → Leaks w w'
  same : ¬CatFails t → SameTable w w'

section

variable {w w₁ w' : World} {t t' : Calls}

theorem catFails_cons {op : Op} {r : Resp op} (h : ∀ fd, op ≠ .copyOut fd) :
    CatFails (⟨op, r⟩ :: t) ↔ CatFails t := by
  refine exists_congr fun fd => exists_congr fun how => and_congr_left fun _ => ?_
  rw [List.mem_cons]
  exact or_iff_right fun he => h fd (congrArg Sigma.fst he).symm

theorem catFails_copied {fd : Int} : CatFails (⟨.copyOut fd, .copied⟩ :: t) ↔ CatFails t := by
  refine exists_congr fun fd' => exists_congr fun how => and_congr_left fun hhow => ?_
  rw [List.mem_cons]
  refine or_iff_right fun he => hhow ?_
  cases he
  rfl

theorem catFails_append : CatFails (t ++ t') ↔ CatFails t ∨ CatFails t' := by
  simp only [CatFails, List.mem_append, or_and_right, exists_or]

theorem waitLost_append : WaitLost (t ++ t') ↔ WaitLost t ∨ WaitLost t' := by
  simp only [WaitLost, List.mem_append, or_and_right, exists_or]

theorem not_catFails (h : ∀ x ∈ t, Aside x.1) : ¬CatFails t := by
  rintro ⟨fd, how, hmem, -⟩
  cases h _ hmem

/-- A wait that `executeCommand` or `fg` makes. -/
def awaits : Op → Bool
  | .waitpid _ untraced => untraced
  | _ => false

abbrev Still (op : Op) : Prop := awaits op = false

theorem SetupCall.still {op : Op} (h : SetupCall op) : Still op := by
  cases h <;> rfl

theorem not_waitLost (h : ∀ x ∈ t, Still x.1) : ¬WaitLost t := by
  rintro ⟨pid, how, hmem, -⟩
  cases h _ hmem

theorem waitLost_cons {op : Op} {r : Resp op} (h : Still op) :
    WaitLost (⟨op, r⟩ :: t) ↔ WaitLost t := by
  rw [← List.singleton_append, waitLost_append]
  exact or_iff_right (not_waitLost (by simpa using h))

theorem Body.of_aside (hfds : w'.fds = w.fds) (h : ∀ x ∈ t, Aside x.1) : Body t w w' where
  keeps fd _ := by rw [hfds]
  leaks hcat := absurd hcat (not_catFails h)
  same _ fd := by rw [hfds]

/-- From a world with the same table, with calls that fail alike. -/
theorem Body.congr (h : Body t w₁ w') (hsame : SameTable w w₁)
    (hcat : CatFails t' ↔ CatFails t) : Body t' w w' where
  keeps fd hfd := by rw [h.keeps fd (by rwa [hsame]), hsame]
  leaks hfails := by
    obtain ⟨fd, hfree, hopen⟩ := h.leaks (hcat.mp hfails)
    exact ⟨fd, by rwa [← hsame], hopen⟩
  same hno fd := by rw [h.same (mt hcat.mpr hno), hsame]

/-! ## The parts -/

/-- **`cat`** leaves the file it could not copy open. -/
theorem catFiles_body {args : List Text} (h : Executed (catFiles args) w t () w') :
    Body t w w' := by
  induction args generalizing w t with
  | nil =>
      obtain ⟨rfl, -, rfl⟩ := Exec.ret_iff.mp h
      exact .of_aside rfl (by simp)
  | cons arg args ih =>
      unfold catFiles at h
      split at h
      · obtain ⟨rfl, -, rfl⟩ := Exec.ret_iff.mp h
        exact .of_aside rfl (by simp)
      obtain ⟨n, w₁, t₁, rfl, h₁, hopen⟩ := executed_openFile h
      split at h₁
      · rename_i hn
        obtain ⟨-, hsame⟩ | ⟨file, rfl, -⟩ := hopen
        · obtain ⟨hfds, haside⟩ := aside_frame (.perform rfl) h₁
          exact (Body.of_aside hfds haside).congr (fun fd => by rw [hsame])
            (catFails_cons (by simp))
        · cases hn
      rename_i hn
      obtain ⟨rfl, -⟩ | ⟨file, rfl, hfds₁⟩ := hopen
      · exact absurd rfl hn
      obtain ⟨w₂, r, how, w₃, t₂, hw₂, hp₂, rfl, h₂⟩ := executed_call h₁
      have hfds₃ : w₃.fds = setFile w.fds (lowestFree w.fds) (some file) := by
        rw [fds_of (perform_surroundings (by rintro ⟨⟩) hp₂), fds_of hw₂.surroundings, hfds₁]
      -- short of the end, the file stays open
      have hshort : ∀ msg, how ≠ .copied → Executed (error msg) w₃ t₂ () w' →
          Body (⟨.openFile (trim arg), (lowestFree w.fds : Int)⟩ ::
            ⟨.copyOut (lowestFree w.fds), how⟩ :: t₂) w w' := by
        intro msg hhow herror
        obtain ⟨hfds, -⟩ := aside_frame (.perform rfl) herror
        have hfile : ∀ fd, fileOf w'.fds fd =
            if fd = lowestFree w.fds then some file else fileOf w.fds fd := by
          intro fd
          rw [hfds, hfds₃, fileOf_setFile]
        refine ⟨fun fd hfd => ?_, fun _ => ⟨lowestFree w.fds, fileOf_lowestFree _, ?_⟩,
          fun hno => absurd ⟨_, how, by simp, hhow⟩ hno⟩
        · rw [hfile, if_neg]
          rintro rfl
          exact hfd (fileOf_lowestFree _)
        · rw [hfile, if_pos rfl]
          simp
      cases how with
      | readFailed => exact hshort _ (by simp) h₂
      | writeFailed => exact hshort _ (by simp) h₂
      | copied =>
          obtain ⟨m, w₄, t₃, rfl, h₃, hclose⟩ := executed_close h₂
          rw [hfds₃, fileOf_setFile, if_pos rfl] at hclose
          obtain ⟨hnone, -⟩ | ⟨-, rfl, hfds₄⟩ := hclose
          · cases hnone
          refine (ih h₃).congr (fun fd => ?_) ?_
          · rw [hfds₄, Int.toNat_natCast, fileOf_setFile, fileOf_setFile]
            split
            · rename_i hfd
              rw [hfd, fileOf_lowestFree]
            · rfl
          · rw [catFails_cons (by simp), catFails_copied, catFails_cons (by simp)]

/-- **Saving standard output**: it is on another descriptor, with the target on
1; or nothing changed; or the target did not open, and the other descriptor is
open still. -/
theorem prepareRedirectionCommand_does {cmdLine type : Text} {saved : Int} (first : Done Op Resp)
    (h : Executed (prepareRedirectionCommand cmdLine type) w t saved w') :
    (¬CatFails t ∧ ¬WaitLost t) ∧
    ((saved = -1 ∧ ¬TargetFails (first :: t) ∧ SameTable w w') ∨
      (saved = -1 ∧ TargetFails (first :: t) ∧ Leaks w w') ∨
      ((∀ rest, ¬TargetFails (first :: (t ++ rest))) ∧ ∃ n : Nat, ∃ file target : Nat,
        saved = n ∧ n ≠ 1 ∧ fileOf w.fds 1 = some file ∧ fileOf w.fds n = none ∧
        ∀ fd, fileOf w'.fds fd =
          if fd = 1 then some target else if fd = n then some file else fileOf w.fds fd)) := by
  obtain ⟨n, w₁, t₁, rfl, h₁, hdup⟩ := executed_dup h
  obtain ⟨rfl, hfds₁⟩ | ⟨file, hfile, rfl, hfds₁⟩ := hdup
  · rw [if_pos rfl] at h₁
    obtain ⟨t₂, t₃, u, w₂, rfl, herror, hret⟩ := Exec.bind_iff.mp h₁
    obtain ⟨hsame, -, rfl⟩ := executed_error herror
    obtain ⟨rfl, rfl, rfl⟩ := Exec.ret_iff.mp hret
    refine ⟨by simp [CatFails, WaitLost], .inl ⟨rfl, by simp [TargetFails], fun fd => ?_⟩⟩
    rw [fds_of hsame, hfds₁]
  -- 1 was open, so another descriptor is the lowest free one
  have hone : lowestFree w.fds ≠ 1 := by
    intro heq
    have hfree := fileOf_lowestFree w.fds
    rw [heq, Nat.cast_one, hfile] at hfree
    cases hfree
  have hone' : (lowestFree w.fds : Int) ≠ 1 := by omega
  have hsaved : (lowestFree w.fds : Int) ≠ -1 := by omega
  rw [if_neg hsaved] at h₁
  obtain ⟨m, w₂, t₂, rfl, h₂, hclose⟩ := executed_close h₁
  rw [hfds₁, fileOf_setFile, if_neg (Ne.symm hone'), hfile] at hclose
  obtain ⟨hnone, -⟩ | ⟨-, rfl, hfds₂⟩ := hclose
  · cases hnone
  rw [if_neg (by simp)] at h₂
  have htable₂ : ∀ fd, fileOf w₂.fds fd =
      if fd = 1 then none else if fd = lowestFree w.fds then some file else fileOf w.fds fd := by
    intro fd
    rw [hfds₂, Int.toNat_one, fileOf_setFile, fileOf_setFile, Nat.cast_one]
  have hlowest : lowestFree w₂.fds = 1 := by
    refine lowestFree_eq (by rw [Nat.cast_one, htable₂, if_pos rfl]) fun k hk => ?_
    obtain rfl : k = 0 := by omega
    rw [htable₂, if_neg (by simp)]
    split
    · simp
    · rename_i hzero
      exact fileOf_lt_lowestFree (by omega)
  obtain ⟨fd, w₃, t₃, rfl, h₃, hopen⟩ := executed_openFile h₂
  rw [hlowest] at hopen
  obtain ⟨rfl, hfds₃⟩ | ⟨target, rfl, hfds₃⟩ := hopen
  · rw [if_pos rfl] at h₃
    obtain ⟨t₄, t₅, u, w₄, rfl, herror, h₄⟩ := Exec.bind_iff.mp h₃
    obtain ⟨hsame, -, rfl⟩ := executed_error herror
    obtain ⟨k, w₅, t₆, rfl, hret, hdup2⟩ := executed_dup2 h₄
    obtain ⟨rfl, rfl, rfl⟩ := Exec.ret_iff.mp hret
    refine ⟨by simp [CatFails, WaitLost],
      .inr (.inl ⟨rfl, ⟨_, _, _, _, rfl⟩, lowestFree w.fds, fileOf_lowestFree _, ?_⟩)⟩
    have hsaved : fileOf w₄.fds (lowestFree w.fds) = some file := by
      rw [fds_of hsame, hfds₃, htable₂, if_neg hone', if_pos rfl]
    rw [hsaved] at hdup2
    obtain ⟨hnone, -⟩ | ⟨file', -, -, hfds₅⟩ := hdup2
    · cases hnone
    · rw [hfds₅, Int.toNat_one, fileOf_setFile, Nat.cast_one, if_neg hone', hsaved]
      simp
  · rw [if_neg (by simp)] at h₃
    obtain ⟨rfl, rfl, rfl⟩ := Exec.ret_iff.mp h₃
    refine ⟨by simp [CatFails, WaitLost], .inr (.inr ⟨by simp [TargetFails], _, file, target, rfl,
      hone, hfile, fileOf_lowestFree _, fun fd => ?_⟩)⟩
    rw [hfds₃, fileOf_setFile, htable₂, Nat.cast_one]
    by_cases hfd : fd = 1
    · simp [hfd]
    · simp [hfd]

/-- **Restoring it.** -/
theorem undoRedirection_does {n : Nat} {file : Nat} (hn : n ≠ 1)
    (hfile : fileOf w.fds n = some file)
    (h : Executed (undoRedirection n) w t () w') :
    (∀ fd, fileOf w'.fds fd =
      if fd = 1 then some file else if fd = n then none else fileOf w.fds fd) ∧
    ¬CatFails t ∧ ¬WaitLost t := by
  have hne : (n : Int) ≠ 1 := by omega
  obtain ⟨m, w₁, t₁, rfl, h₁, hdup⟩ := executed_dup2 h
  rw [hfile] at hdup
  obtain ⟨hnone, -⟩ | ⟨file', hfile', rfl, hfds₁⟩ := hdup
  · cases hnone
  cases hfile'
  rw [Int.toNat_one] at hfds₁
  rw [if_neg (by simp)] at h₁
  obtain ⟨m, w₂, t₂, rfl, h₂, hclose⟩ := executed_close h₁
  rw [hfds₁, fileOf_setFile, Nat.cast_one, if_neg hne, hfile] at hclose
  obtain ⟨hnone, -⟩ | ⟨-, rfl, hfds₂⟩ := hclose
  · cases hnone
  rw [if_neg (by simp)] at h₂
  obtain ⟨rfl, -, rfl⟩ := Exec.ret_iff.mp h₂
  refine ⟨fun fd => ?_, by simp [CatFails], by simp [WaitLost]⟩
  rw [hfds₂, Int.toNat_natCast, fileOf_setFile, fileOf_setFile, Nat.cast_one]
  by_cases hone : fd = 1
  · subst hone
    simp [Ne.symm hne]
  · simp [hone]

theorem aside_bind {α β : Type} {p : Code α} {f : α → Code β} {b : β} (hp : p.All Aside)
    (h : Executed (p >>= f) w t b w') :
    ∃ a w₁ t₁ t₂, t = t₁ ++ t₂ ∧ w₁.fds = w.fds ∧ (∀ x ∈ t₁, Aside x.1) ∧
      Executed (f a) w₁ t₂ b w' := by
  obtain ⟨t₁, t₂, a, w₁, rfl, h₁, h₂⟩ := Exec.bind_iff.mp h
  obtain ⟨hfds, haside⟩ := aside_frame hp h₁
  exact ⟨a, w₁, t₁, t₂, rfl, hfds, haside, h₂⟩

theorem still_bind {α β : Type} {p : Code α} {f : α → Code β} {b : β}
    (hp : p.All Still) (h : Executed (p >>= f) w t b w') :
    ∃ a w₁ t', Executed (f a) w₁ t' b w' ∧ (WaitLost t ↔ WaitLost t') := by
  obtain ⟨t₁, t₂, a, w₁, rfl, h₁, h₂⟩ := Exec.bind_iff.mp h
  exact ⟨a, w₁, t₂, h₂, waitLost_append.trans (or_iff_right (not_waitLost (hp.calls h₁)))⟩

/-- **A pipe** is closed again. -/
theorem executePipeCommand_does {cmdLine type : Text} (first : Done Op Resp)
    (h : Executed (executePipeCommand cmdLine type) w t () w') :
    SameTable w w' ∧ ¬TargetFails (first :: t) ∧ ¬CatFails t := by
  obtain ⟨p, w₁, t₁, rfl, h₁, hpipe⟩ := executed_pipe h
  obtain ⟨rfl, hfds₁⟩ | ⟨n, m, file, file', rfl, hn, hm, hne, hfds₁⟩ := hpipe
  · obtain ⟨hsame, -, rfl⟩ := executed_error h₁
    refine ⟨fun fd => ?_, by simp [TargetFails], by simp [CatFails]⟩
    rw [fds_of hsame, hfds₁]
  have hne' : (n : Int) ≠ m := by omega
  -- up to the first `close` the table stays
  obtain ⟨cmd₁, w₂, t₂, s₂, rfl, hfds₂, haside₂, h₂⟩ := aside_bind (createCommand_aside _) h₁
  obtain ⟨cmd₂, w₃, t₃, s₃, rfl, hfds₃, haside₃, h₃⟩ := aside_bind (createCommand_aside _) h₂
  obtain ⟨res, w₄, t₄, s₄, rfl, hfds₄, haside₄, h₄⟩ := aside_bind (.perform rfl) h₃
  obtain ⟨u₅, w₅, t₅, s₅, rfl, hfds₅, haside₅, h₅⟩ :=
    aside_bind (.when fun _ => .perform (P := Aside) rfl) h₄
  obtain ⟨res2, w₆, t₆, s₆, rfl, hfds₆, haside₆, h₆⟩ := aside_bind (.perform rfl) h₅
  obtain ⟨u₇, w₇, t₇, s₇, rfl, hfds₇, haside₇, h₇⟩ :=
    aside_bind (.when fun _ => .perform (P := Aside) rfl) h₆
  obtain ⟨k, w₈, t₈, rfl, h₈, hclose⟩ := executed_close h₇
  have hfds : w₇.fds = setFile (setFile w.fds n (some file)) m (some file') := by
    rw [hfds₇, hfds₆, hfds₅, hfds₄, hfds₃, hfds₂, hfds₁]
  rw [hfds, fileOf_setFile, if_neg hne', fileOf_setFile, if_pos rfl] at hclose
  obtain ⟨hnone, -⟩ | ⟨-, rfl, hfds₈⟩ := hclose
  · cases hnone
  rw [if_neg (by simp)] at h₈
  obtain ⟨k, w₉, t₉, rfl, h₉, hclose'⟩ := executed_close h₈
  rw [hfds₈, Int.toNat_natCast, fileOf_setFile, if_neg (Ne.symm hne'), fileOf_setFile,
    if_pos rfl] at hclose'
  obtain ⟨hnone, -⟩ | ⟨-, rfl, hfds₉⟩ := hclose'
  · cases hnone
  rw [if_neg (by simp)] at h₉
  have hwaits : (call (.waitpid res false) >>= fun how =>
      if how = .failed then error "smash error: waitpid failed"
      else call (.waitpid res2 false) >>= fun how =>
        if how = .failed then error "smash error: waitpid failed" else pure ()).All Aside := by
    refine .perform_bind rfl fun how => ?_
    split
    · exact .perform rfl
    refine .perform_bind rfl fun how => ?_
    split
    · exact .perform rfl
    · trivial
  obtain ⟨hfdsEnd, hasideEnd⟩ := aside_frame hwaits h₉
  refine ⟨fun fd => ?_, by simp [TargetFails], ?_⟩
  · rw [hfdsEnd, hfds₉, Int.toNat_natCast, fileOf_setFile, fileOf_setFile, fileOf_setFile,
      fileOf_setFile]
    split
    · rename_i hfd
      rw [hfd, hm]
    split
    · rename_i hfd
      rw [hfd, hn]
    · rfl
  · rw [catFails_cons (by simp), catFails_append, catFails_append, catFails_append,
      catFails_append, catFails_append, catFails_append, catFails_cons (by simp),
      catFails_cons (by simp)]
    simp only [not_catFails haside₂, not_catFails haside₃, not_catFails haside₄,
      not_catFails haside₅, not_catFails haside₆, not_catFails haside₇, not_catFails hasideEnd,
      or_self, not_false_eq_true]

/-- **Where `executeCommand` returns early**: after a wait that is lost. -/
theorem launch_goesOn {isBackground goesOn : Bool} {kind : Kind} {cmd : Nat} {cmdLine : Text}
    (h : Executed (launch isBackground kind cmd cmdLine) w t goesOn w') :
    goesOn = false ↔ WaitLost t := by
  obtain ⟨u₁, w₁, t₁, h₁, hlost₁⟩ := still_bind (.when fun _ => .perform (P := Still) rfl) h
  obtain ⟨u₂, w₂, t₂, h₂, hlost₂⟩ := still_bind (.perform rfl) h₁
  obtain ⟨pid, w₃, t₃, h₃, hlost₃⟩ := still_bind (.perform rfl) h₂
  obtain ⟨u₄, w₄, t₄, h₄, hlost₄⟩ := still_bind (.when fun _ => .perform (P := Still) rfl) h₃
  obtain ⟨u₅, w₅, t₅, h₅, hlost₅⟩ := still_bind (.perform rfl) h₄
  obtain ⟨u₆, w₆, t₆, h₆, hlost₆⟩ :=
    still_bind (.when fun _ => (startTimeout_calls ..).mono fun _ => SetupCall.still) h₅
  rw [hlost₁, hlost₂, hlost₃, hlost₄, hlost₅, hlost₆]
  split at h₆
  · obtain ⟨u₇, w₇, t₇, h₇, hlost₇⟩ := still_bind (.perform rfl) h₆
    obtain ⟨u₈, w₈, t₈, h₈, hlost₈⟩ := still_bind (.perform rfl) h₇
    obtain ⟨rfl, rfl, -⟩ := Exec.ret_iff.mp h₈
    rw [hlost₇, hlost₈]
    simp [WaitLost]
  · obtain ⟨w₇, r, how, w₈, t₇, -, -, rfl, h₇⟩ := executed_call h₆
    cases how with
    | failed =>
        obtain ⟨t₈, t₉, u₈, w₉, -, -, hret⟩ := Exec.bind_iff.mp h₇
        obtain ⟨-, rfl, -⟩ := Exec.ret_iff.mp hret
        exact iff_of_true rfl ⟨pid, .failed, by simp, by simp⟩
    | ended =>
        obtain ⟨rfl, rfl, -⟩ := Exec.ret_iff.mp h₇
        simp [WaitLost]
    | stopped =>
        obtain ⟨u₈, w₉, t₈, h₈, -⟩ := still_bind (.perform rfl) h₇
        obtain ⟨u₉, w₁₀, t₉, h₉, -⟩ := still_bind (.perform rfl) h₈
        obtain ⟨-, rfl, -⟩ := Exec.ret_iff.mp h₉
        exact iff_of_true rfl ⟨pid, .stopped, by simp, by simp⟩

/-- **The command itself.** -/
theorem runKind_does {isBackground goesOn : Bool} {kind : Kind} {cmd : Nat} {cmdLine : Text}
    (h : Executed (runKind isBackground kind cmd cmdLine) w t goesOn w') :
    Body t w w' ∧ (goesOn = false ↔ kind.Launched ∧ WaitLost t) := by
  unfold runKind at h
  split at h
  · rename_i hkind
    obtain ⟨hfds, haside⟩ := aside_frame (launch_aside ..) h
    exact ⟨.of_aside hfds haside, by rw [launch_goesOn h, iff_and_self]; exact fun _ => hkind⟩
  · rename_i hkind
    obtain ⟨t₁, t₂, u, w₁, rfl, h₁, hret⟩ := Exec.bind_iff.mp h
    obtain ⟨rfl, rfl, rfl⟩ := Exec.ret_iff.mp hret
    rw [List.append_nil]
    refine ⟨?_, iff_of_false (by simp) fun hlaunched => hkind hlaunched.1⟩
    by_cases hcat : kind = .cat
    · subst hcat
      exact catFiles_body h₁
    · obtain ⟨hfds, haside⟩ := aside_frame (execute_aside _ hcat) h₁
      exact .of_aside hfds haside

/-- **A command up to the last lines**, with what it lets `executeCommand` do. -/
theorem runCommand_does {isBackground : Bool} {cmdLine : Text} {fdStdout : Option Int}
    (h : Executed (runCommand isBackground cmdLine fdStdout) w t () w') :
    ∃ goesOn w₁ t₁ t₂, Body t₁ w w₁ ∧ (goesOn = false ↔ (kindOf cmdLine).Launched ∧ WaitLost t₁) ∧
      t = t₁ ++ t₂ ∧ (∀ first rest, ¬TargetFails (first :: (t₁ ++ rest))) ∧
      Executed (match goesOn, fdStdout with
        | true, some fd => undoRedirection fd
        | _, _ => return) w₁ t₂ () w' := by
  obtain ⟨t₁, s₁, cmd, w₁, rfl, hcreate, h₁⟩ := Exec.bind_iff.mp h
  obtain ⟨t₂, s₂, goesOn, w₂, rfl, hkind, h₂⟩ := Exec.bind_iff.mp h₁
  obtain ⟨hfds, haside⟩ := aside_frame (createCommand_aside cmdLine) hcreate
  have hsetup := (createCommand_calls cmdLine).calls hcreate
  obtain ⟨hbody, hgoes⟩ := runKind_does hkind
  refine ⟨goesOn, w₂, t₁ ++ t₂, s₂, hbody.congr (fun fd => by rw [hfds]) ?_, ?_,
    (List.append_assoc ..).symm, fun first rest => ?_, h₂⟩
  · rw [catFails_append, or_iff_right (not_catFails haside)]
  · rw [hgoes, waitLost_append, or_iff_right (not_waitLost fun x hx => (hsetup x hx).still)]
  · -- the command is created first
    obtain ⟨v₁, r, a, v₂, t₃, -, -, rfl, -⟩ := executed_call hcreate
    simp [TargetFails]

/-- **A redirected command**: the last lines restore the table, or it keeps a
descriptor too many. -/
theorem runCommand_redirected {isBackground : Bool} {cmdLine : Text} {n file : Nat}
    (hn : n ≠ 1) (hfile : fileOf w.fds n = some file) (hone : fileOf w.fds 1 ≠ none)
    (h : Executed (runCommand isBackground cmdLine (some n)) w t () w') :
    (CatFails t ∨ (kindOf cmdLine).Launched ∧ WaitLost t →
      ∃ fd : Int, fd ≠ 1 ∧ (fd = n ∨ fileOf w.fds fd = none) ∧ fileOf w'.fds fd ≠ none) ∧
    (¬(CatFails t ∨ (kindOf cmdLine).Launched ∧ WaitLost t) →
      ∀ fd, fileOf w'.fds fd =
        if fd = 1 then some file else if fd = n then none else fileOf w.fds fd) := by
  have hne : (n : Int) ≠ 1 := by omega
  obtain ⟨goesOn, w₁, t₁, t₂, hbody, hgoes, rfl, -, hend⟩ := runCommand_does h
  have hkept : fileOf w₁.fds n = some file := by
    rw [hbody.keeps n (by simp [hfile]), hfile]
  cases goesOn with
  | false =>
      obtain ⟨rfl, -, rfl⟩ := Exec.ret_iff.mp hend
      rw [List.append_nil]
      refine ⟨fun _ => ⟨n, hne, .inl rfl, by simp [hkept]⟩, fun hno => ?_⟩
      exact absurd (.inr (hgoes.mp rfl)) hno
  | true =>
      obtain ⟨htable, hcat, hwait⟩ := undoRedirection_does hn hkept hend
      rw [catFails_append, or_iff_left hcat, waitLost_append, or_iff_left hwait]
      have hgoes' : ¬((kindOf cmdLine).Launched ∧ WaitLost t₁) := by simpa using hgoes
      rw [or_iff_left hgoes']
      refine ⟨fun hfails => ?_, fun hno fd => ?_⟩
      · obtain ⟨fd, hfree, hopen⟩ := hbody.leaks hfails
        have hfd₁ : fd ≠ 1 := by
          rintro rfl
          exact hone hfree
        have hfd₂ : fd ≠ n := by
          rintro rfl
          rw [hfile] at hfree
          cases hfree
        exact ⟨fd, hfd₁, .inr hfree, by rwa [htable, if_neg hfd₁, if_neg hfd₂]⟩
      · rw [htable, hbody.same hno]

/-! ## The whole line -/

theorem SameTable.undone (h : SameTable w w') : Undone w w' :=
  ⟨h 1, fun fd hfree => by rw [h, hfree]⟩

theorem SameTable.undone_iff (h : SameTable w w₁) : Undone w w' ↔ Undone w₁ w' := by
  simp only [Undone, h _]

theorem Leaks.not_undone (h : Leaks w w') : ¬Undone w w' := by
  obtain ⟨fd, hfree, hopen⟩ := h
  exact fun hundone => hopen (hundone.2 fd hfree)

/-- **A command without a redirection.** -/
theorem runCommand_undone {isBackground : Bool} {cmdLine : Text} (first : Done Op Resp)
    (h : Executed (runCommand isBackground cmdLine none) w t () w') :
    (Undone w w' ↔ ¬CatFails t) ∧ ¬TargetFails (first :: t) := by
  obtain ⟨goesOn, w₁, t₁, t₂, hbody, -, rfl, htarget, hend⟩ := runCommand_does h
  have hret : t₂ = [] ∧ w' = w₁ := by
    cases goesOn with
    | true =>
        obtain ⟨rfl, -, rfl⟩ := Exec.ret_iff.mp hend
        exact ⟨rfl, rfl⟩
    | false =>
        obtain ⟨rfl, -, rfl⟩ := Exec.ret_iff.mp hend
        exact ⟨rfl, rfl⟩
  obtain ⟨rfl, rfl⟩ := hret
  refine ⟨?_, htarget first []⟩
  rw [List.append_nil]
  constructor
  · intro hundone hfails
    exact (hbody.leaks hfails).not_undone hundone
  · exact fun hno => (hbody.same hno).undone

/-- **A command with standard output saved** in `n`, which was free. -/
theorem saved_undone {isBackground : Bool} {cmdLine : Text} {n file target : Nat} (hn : n ≠ 1)
    (hone : fileOf w.fds 1 = some file) (hfree : fileOf w.fds n = none)
    (htable : ∀ fd, fileOf w₁.fds fd =
      if fd = 1 then some target else if fd = n then some file else fileOf w.fds fd)
    (h : Executed (runCommand isBackground cmdLine (some n)) w₁ t () w') :
    Undone w w' ↔ ¬(CatFails t ∨ (kindOf cmdLine).Launched ∧ WaitLost t) := by
  have hne : (n : Int) ≠ 1 := by omega
  have hsaved : fileOf w₁.fds n = some file := by rw [htable, if_neg hne, if_pos rfl]
  obtain ⟨hleft, hback⟩ := runCommand_redirected hn hsaved (by simp [htable]) h
  constructor
  · intro hundone hfails
    obtain ⟨fd, hfd, hwas, hopen⟩ := hleft hfails
    refine hopen (hundone.2 fd ?_)
    obtain rfl | hwas := hwas
    · exact hfree
    · rw [htable, if_neg hfd] at hwas
      split at hwas
      · cases hwas
      · exact hwas
  · intro hno
    have htable' := hback hno
    refine ⟨by rw [htable', if_pos rfl, hone], fun fd hclosed => ?_⟩
    have hfd : fd ≠ 1 := by
      rintro rfl
      rw [hone] at hclosed
      cases hclosed
    rw [htable', if_neg hfd, htable, if_neg hfd]
    split
    · rfl
    · exact hclosed

/-- **A redirection**, from where standard output is saved. -/
theorem redirected_undone {isBackground : Bool} {cmdLine type : Text} (first : Done Op Resp)
    (h : Executed (do
      let fdStdout ← prepareRedirectionCommand cmdLine type
      .when (fdStdout ≠ -1) (runCommand isBackground (before type cmdLine) (some fdStdout)))
      w t () w') :
    Undone w w' ↔ ¬(TargetFails (first :: t) ∨ CatFails t ∨
      (kindOf (before type cmdLine)).Launched ∧ WaitLost t) := by
  obtain ⟨t₁, t₂, saved, w₁, rfl, hprepare, hrun⟩ := Exec.bind_iff.mp h
  obtain ⟨⟨hcat, hwait⟩, hdoes⟩ := prepareRedirectionCommand_does first hprepare
  rw [catFails_append, or_iff_right hcat, waitLost_append, or_iff_right hwait]
  obtain ⟨rfl, htarget, hsame⟩ | ⟨rfl, htarget, hleak⟩ |
    ⟨htarget, n, file, target, rfl, hn, hone, hfree, htable⟩ := hdoes
  · obtain ⟨hgo, -⟩ | ⟨-, rfl, rfl⟩ := Exec.when_iff.mp hrun
    · exact absurd rfl hgo
    rw [List.append_nil]
    refine iff_of_true hsame.undone ?_
    simp [htarget, CatFails, WaitLost]
  · obtain ⟨hgo, -⟩ | ⟨-, rfl, rfl⟩ := Exec.when_iff.mp hrun
    · exact absurd rfl hgo
    rw [List.append_nil]
    exact iff_of_false hleak.not_undone (not_not.mpr (.inl htarget))
  · obtain ⟨-, hcommand⟩ | ⟨hstop, -⟩ := Exec.when_iff.mp hrun
    · rw [or_iff_right (htarget t₂)]
      exact saved_undone hn hone hfree htable hcommand
    · exact absurd (by omega) hstop

/-- **A redirection is undone** exactly when its target opens, `cat` copies its
files to their ends, and no command waited for stops or is lost to a failing
`waitpid`. -/
theorem redirection_undone {cmdLine : Text} (h : Executed (executeCommand cmdLine) w t () w') :
    Undone w w' ↔ ¬(TargetFails t ∨ CatFails t ∨ LeftWaiting cmdLine t) := by
  obtain ⟨w₁, r, stray, w₂, t₁, hw₁, hp₁, rfl, h₁⟩ := executed_call h
  have hsame : SameTable w w₂ := by
    intro fd
    rw [perform_fds rfl hp₁, fds_of hw₁.surroundings]
  have hstray : WaitLost (⟨.strayAmpersand, stray⟩ :: t₁) ↔ WaitLost t₁ := waitLost_cons rfl
  rw [hsame.undone_iff, catFails_cons (by simp)]
  simp only [LeftWaiting, hstray]
  split at h₁
  · rename_i hpipe
    obtain ⟨hpiped, htarget, hcat⟩ := executePipeCommand_does ⟨.strayAmpersand, stray⟩ h₁
    refine iff_of_true hpiped.undone ?_
    simp [htarget, hcat, hpipe]
  rename_i hpipe
  split at h₁
  · rename_i hredirection
    obtain ⟨hundone, htarget⟩ := runCommand_undone ⟨.strayAmpersand, stray⟩ h₁
    rw [hundone]
    simp [htarget, hredirection]
  · rename_i type hredirection
    simp only [hpipe, hredirection, Option.some.injEq, exists_eq_left', true_and]
    exact redirected_undone ⟨.strayAmpersand, stray⟩ h₁

end

/-- The shell at its start, in the root directory. -/
def atStart : World := .start 0 "/".toList

/-- What `pwd > f` calls, up to the `open`. -/
def savingCalls (opened : Int) : Calls :=
  [⟨.strayAmpersand, false⟩, ⟨.dup 1, 3⟩, ⟨.close 1, 0⟩, ⟨.openFile "f".toList, opened⟩]

/-- All of it, when `f` opens. -/
def pwdCalls : Calls :=
  savingCalls 1 ++ [⟨.newCommand .pwd "pwd ".toList, 0⟩, ⟨.getcwd, "/".toList⟩, ⟨.dup2 3 1, 1⟩,
    ⟨.close 3, 0⟩]

/-- And what it leaves. -/
def pwdLeaves : World :=
  { atStart.setVars fun v => { v with commands := [⟨.pwd, "pwd ".toList, true, -1, false⟩] } with
    fds := [some 0, some 1, some 2, none]
    files := 4 }

set_option maxRecDepth 10000 in
theorem redirection_undone_pwd :
    Executed (executeCommand "pwd > f".toList) atStart pwdCalls () pwdLeaves ∧
    Undone atStart pwdLeaves := by
  have hfollow : (executeCommand "pwd > f".toList).follow perform atStart
      (List.replicate 8 .done) = some (pwdCalls, (), pwdLeaves) := by decide +kernel
  have hexec := executed_of_follow hfollow
  refine ⟨hexec, (redirection_undone hexec).mpr ?_⟩
  rintro (⟨_, _, _, _, h⟩ | ⟨_, _, hmem, -⟩ | ⟨-, _, -, -, _, _, hmem, -⟩)
  · simp [pwdCalls, savingCalls] at h
  · simp [pwdCalls, savingCalls] at hmem
  · simp [pwdCalls, savingCalls] at hmem

set_option maxRecDepth 10000 in
/-- **A target that cannot be opened**: the copy of standard output, on 3,
stays open. -/
theorem target_leaks : ∃ w', Executed (executeCommand "pwd > f".toList) atStart
      (savingCalls (-1) ++ [⟨.error "smash error: open failed".toList, ()⟩, ⟨.dup2 3 1, 1⟩])
      () w' ∧
    fileOf atStart.fds 3 = none ∧ fileOf w'.fds 3 = some 1 ∧ ¬Undone atStart w' := by
  have hfollow : (executeCommand "pwd > f".toList).follow perform atStart
      [.done, .done, .done, .failed, .done, .done] =
      some (savingCalls (-1) ++ [⟨.error "smash error: open failed".toList, ()⟩, ⟨.dup2 3 1, 1⟩],
        (), { atStart with fds := [some 0, some 1, some 2, some 1] }) := by decide +kernel
  refine ⟨_, executed_of_follow hfollow, by decide, by decide, fun hundone => ?_⟩
  exact absurd (hundone.2 3 (by decide)) (by decide)

end OsAllHw.Shell
