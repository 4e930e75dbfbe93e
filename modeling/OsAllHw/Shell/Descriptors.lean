import OsAllHw.Shell.Calls
import OsAllHw.Shell.Executions

/-!
# The descriptor table

What `dup`, `dup2`, `close` and `open` make of the table, read through
`fileOf`; the other calls leave it as it is. `open` returns the lowest free
descriptor, which is 1 once 1 is saved elsewhere and closed.
-/

namespace OsAllHw.Shell

open Lib

/-! ## Reading and writing the table -/

theorem setFile_join (fds : List (Option Nat)) (n : Nat) (file : Option Nat) (k : Nat) :
    (setFile fds n file)[k]?.join = if k = n then file else fds[k]?.join := by
  unfold setFile
  split
  · rename_i hn
    rw [List.getElem?_set]
    by_cases hk : k = n
    · simp [hk, hn]
    · simp [hk, Ne.symm hk]
  · rename_i hn
    rw [List.append_assoc, List.getElem?_append]
    by_cases hlt : k < fds.length
    · have : k ≠ n := by omega
      simp [hlt, this]
    · rw [if_neg hlt, List.getElem?_append, List.length_replicate, List.getElem?_replicate,
        List.getElem?_eq_none (by omega : fds.length ≤ k)]
      by_cases hk : k = n
      · subst hk
        simp
      · simp only [hk, if_false]
        split
        · rfl
        · rw [List.getElem?_eq_none (by simp; omega)]

/-- **The table after a write.** -/
@[simp] theorem fileOf_setFile (fds : List (Option Nat)) (n : Nat) (file : Option Nat) (fd : Int) :
    fileOf (setFile fds n file) fd = if fd = n then file else fileOf fds fd := by
  unfold fileOf
  by_cases hfd : 0 ≤ fd
  · lift fd to Nat using hfd
    simp [setFile_join]
  · have : fd ≠ n := by omega
    simp [hfd, this]

theorem fileOf_nat (fds : List (Option Nat)) (n : Nat) : fileOf fds n = fds[n]?.join := by
  simp [fileOf]

theorem fileOf_lowestFree (fds : List (Option Nat)) : fileOf fds (lowestFree fds) = none := by
  rw [fileOf_nat, lowestFree]
  cases hget : fds[fds.findIdx Option.isNone]? with
  | none => rfl
  | some file =>
      have hfree := List.findIdx_of_getElem?_eq_some hget
      cases file with
      | none => rfl
      | some f => cases hfree

/-- Everything below the lowest free descriptor is in use. -/
theorem fileOf_lt_lowestFree {fds : List (Option Nat)} {n : Nat} (h : n < lowestFree fds) :
    fileOf fds n ≠ none := by
  have hlt : n < fds.length := h.trans_le List.findIdx_le_length
  have hused := List.not_of_lt_findIdx h
  rw [fileOf_nat, List.getElem?_eq_getElem hlt]
  cases hget : fds[n] with
  | none => simp [hget] at hused
  | some f => simp

theorem lowestFree_eq {fds : List (Option Nat)} {n : Nat} (hfree : fileOf fds n = none)
    (hused : ∀ m < n, fileOf fds m ≠ none) : lowestFree fds = n := by
  rcases Nat.lt_trichotomy (lowestFree fds) n with hlt | heq | hgt
  · exact absurd (fileOf_lowestFree fds) (hused _ hlt)
  · exact heq
  · exact absurd hfree (fileOf_lt_lowestFree hgt)

/-- Two worlds with the same table. -/
def SameTable (w w' : World) : Prop := ∀ fd, fileOf w'.fds fd = fileOf w.fds fd

/-- What is open stays what it is. -/
def KeepsOpen (w w' : World) : Prop :=
  ∀ fd, fileOf w.fds fd ≠ none → fileOf w'.fds fd = fileOf w.fds fd

/-- A descriptor is open that was not. -/
def Leaks (w w' : World) : Prop := ∃ fd, fileOf w.fds fd = none ∧ fileOf w'.fds fd ≠ none

/-! ## The calls -/

section

variable {α : Type} {w w' : World} {t : Calls} {b : α}

theorem fds_of {w₁ : World} (h : w₁.surroundings = w.surroundings) : w₁.fds = w.fds :=
  (Prod.mk.inj (Prod.mk.inj h).2).1

theorem executed_dup {fd : Int} {k : Int → Code α} (h : Executed (call (.dup fd) >>= k) w t b w') :
    ∃ n w₁ t', t = ⟨.dup fd, n⟩ :: t' ∧ Executed (k n) w₁ t' b w' ∧
      (n = -1 ∧ w₁.fds = w.fds ∨ ∃ file, fileOf w.fds fd = some file ∧ n = lowestFree w.fds ∧
        w₁.fds = setFile w.fds (lowestFree w.fds) (some file)) := by
  obtain ⟨w₁, r, n, w₂, t', hw₁, hp, rfl, hnext⟩ := executed_call h
  refine ⟨n, w₂, t', rfl, hnext, ?_⟩
  rw [← fds_of hw₁.surroundings]
  cases r with
  | done =>
      simp only [perform, World.dup] at hp
      split at hp
      · rename_i file hfile
        cases hp
        exact .inr ⟨file, hfile, rfl, rfl⟩
      · cases hp
        exact .inl ⟨rfl, rfl⟩
  | failed =>
      cases hp
      exact .inl ⟨rfl, rfl⟩
  | _ => cases hp

theorem executed_close {fd : Int} {k : Int → Code α}
    (h : Executed (call (.close fd) >>= k) w t b w') :
    ∃ n w₁ t', t = ⟨.close fd, n⟩ :: t' ∧ Executed (k n) w₁ t' b w' ∧
      (fileOf w.fds fd = none ∧ n = -1 ∧ w₁.fds = w.fds ∨
        fileOf w.fds fd ≠ none ∧ n = 0 ∧ w₁.fds = setFile w.fds fd.toNat none) := by
  obtain ⟨w₁, r, n, w₂, t', hw₁, hp, rfl, hnext⟩ := executed_call h
  refine ⟨n, w₂, t', rfl, hnext, ?_⟩
  rw [← fds_of hw₁.surroundings]
  simp only [perform, World.close, Option.some.injEq] at hp
  split at hp
  · rename_i file hfile
    cases hp
    exact .inr ⟨by simp [hfile], rfl, rfl⟩
  · rename_i hfile
    cases hp
    exact .inl ⟨hfile, rfl, rfl⟩

theorem executed_openFile {path : Text} {k : Int → Code α}
    (h : Executed (call (.openFile path) >>= k) w t b w') :
    ∃ n w₁ t', t = ⟨.openFile path, n⟩ :: t' ∧ Executed (k n) w₁ t' b w' ∧
      (n = -1 ∧ w₁.fds = w.fds ∨ ∃ file, n = lowestFree w.fds ∧
        w₁.fds = setFile w.fds (lowestFree w.fds) (some file)) := by
  obtain ⟨w₁, r, n, w₂, t', hw₁, hp, rfl, hnext⟩ := executed_call h
  refine ⟨n, w₂, t', rfl, hnext, ?_⟩
  rw [← fds_of hw₁.surroundings]
  cases r with
  | done =>
      cases hp
      exact .inr ⟨w₁.files, rfl, rfl⟩
  | failed =>
      cases hp
      exact .inl ⟨rfl, rfl⟩
  | _ => cases hp

theorem executed_dup2 {oldFd newFd : Int} {k : Int → Code α}
    (h : Executed (call (.dup2 oldFd newFd) >>= k) w t b w') :
    ∃ n w₁ t', t = ⟨.dup2 oldFd newFd, n⟩ :: t' ∧ Executed (k n) w₁ t' b w' ∧
      (fileOf w.fds oldFd = none ∧ n = -1 ∧ w₁.fds = w.fds ∨
        ∃ file, fileOf w.fds oldFd = some file ∧ n = newFd ∧
          w₁.fds = setFile w.fds newFd.toNat (some file)) := by
  obtain ⟨w₁, r, n, w₂, t', hw₁, hp, rfl, hnext⟩ := executed_call h
  refine ⟨n, w₂, t', rfl, hnext, ?_⟩
  rw [← fds_of hw₁.surroundings]
  simp only [perform, World.dup2, Option.some.injEq] at hp
  split at hp
  · rename_i file hfile
    cases hp
    exact .inr ⟨file, hfile, rfl, rfl⟩
  · rename_i hfile
    cases hp
    exact .inl ⟨hfile, rfl, rfl⟩

/-- A pipe's two descriptors, or none. -/
theorem executed_pipe {k : Option (Int × Int) → Code α}
    (h : Executed (call .pipe >>= k) w t b w') :
    ∃ p w₁ t', t = ⟨.pipe, p⟩ :: t' ∧ Executed (k p) w₁ t' b w' ∧
      (p = none ∧ w₁.fds = w.fds ∨ ∃ n m : Nat, ∃ file file' : Nat,
        p = some ((n : Int), (m : Int)) ∧ fileOf w.fds n = none ∧ fileOf w.fds m = none ∧ n ≠ m ∧
        w₁.fds = setFile (setFile w.fds n (some file)) m (some file')) := by
  obtain ⟨w₁, r, p, w₂, t', hw₁, hp, rfl, hnext⟩ := executed_call h
  refine ⟨p, w₂, t', rfl, hnext, ?_⟩
  rw [← fds_of hw₁.surroundings]
  cases r with
  | done =>
      cases hp
      have hfree := fileOf_lowestFree (setFile w₁.fds (lowestFree w₁.fds) (some w₁.files))
      rw [fileOf_setFile] at hfree
      split at hfree
      · cases hfree
      · rename_i hne
        refine .inr ⟨_, _, w₁.files, w₁.files + 1, rfl, fileOf_lowestFree _, hfree, ?_, rfl⟩
        exact fun heq => hne (congrArg Nat.cast heq.symm)
  | failed =>
      cases hp
      exact .inl ⟨rfl, rfl⟩
  | _ => cases hp

end

/-! ## Calls that leave it alone -/

theorem perform_fds {op : Op} {w w' : World} {r : Reply} {a : Resp op} (hop : Aside op)
    (h : perform op w r = some (a, w')) : w'.fds = w.fds := by
  by_cases hout : Outward op
  · cases hout with
    | setPrevPwd pwd =>
        cases h
        rfl
    | chdir path =>
        cases r with
        | directory cwd =>
            cases h
            rfl
        | failed =>
            cases h
            rfl
        | _ => cases h
    | _ => cases hop
  · exact fds_of (perform_surroundings hout h)

/-- **A program of such calls.** -/
theorem aside_frame {α : Type} {p : Code α} {w w' : World} {t : Calls} {a : α} (hp : p.All Aside)
    (h : Executed p w t a w') : w'.fds = w.fds ∧ ∀ x ∈ t, Aside x.1 :=
  Prog.All.exec (R := shellRules) (f := World.fds) hp
    (fun _ _ _ _ ⟨_, he⟩ => fds_of (interrupt_frame he).1)
    (fun _ hop _ _ _ ⟨_, hp⟩ => perform_fds hop hp) h

end OsAllHw.Shell
