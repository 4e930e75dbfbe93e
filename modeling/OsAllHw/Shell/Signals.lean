import OsAllHw.Shell.Tracking

/-!
# Ctrl-C and Ctrl-Z

The handlers signal the current command while its flag is up. From its
`SetPid` to its last wait that is a child forked for it; before, the pid is what
the constructor left there, and after, it is the pid of nobody. The outline
carries, for each listed command and the one under way, the child that was
forked for it (`Owned`, `Held`), and that between two commands the flag is
down (`Down`).
-/

namespace OsAllHw.Shell

open Lib

/-! ## Children and flags -/

/-- The pid is that of a child forked for the command, and not reaped. -/
def Owns (w : World) (cmd : Nat) (pid : Int) : Prop :=
  0 < pid ∧ ∃ ch ∈ w.children, ch.pid = pid ∧ ch.cmd = some cmd

/-- ... or the fork for the command failed. -/
def Held (w : World) (cmd : Nat) (pid : Int) : Prop := pid = -1 ∨ Owns w cmd pid

structure Owned (w : World) : Prop where
  nodup : (w.children.map Child.pid).Nodup
  jobs : ∀ e ∈ w.shell.jobs.jobsList, Held w e.cmd e.pid

/-- The command's flag is down. -/
def Lowered (w : World) (cmd : Nat) : Prop :=
  ∃ obj, w.object cmd = some obj ∧ obj.foreground = false

/-- There is nothing to signal. -/
def Down (w : World) : Prop := ∀ cmd ∈ w.shell.currentCmd, Lowered w cmd

/-- The current command's flag is down, or its child is waited for or was
reaped. -/
def Aimed (w : World) : Prop :=
  ∀ cmd ∈ w.shell.currentCmd, ∃ obj, w.object cmd = some obj ∧
    (obj.foreground = true → w.waited = some .ended ∨ Held w cmd obj.pid)

/-- What is signalled, if anything is, is a child of the current command. -/
def Right (w : World) : Prop :=
  ∀ pid ∈ w.signalled, ∃ cmd ∈ w.shell.currentCmd, Owns w cmd pid

section

variable {w w' : World} {pt : Point} {cmd : Nat} {pid : Int}

theorem Down.aimed (h : Down w) : Aimed w := by
  intro cmd hc
  obtain ⟨obj, hobj, hlow⟩ := h cmd hc
  exact ⟨obj, hobj, fun hup => by rw [hlow] at hup; cases hup⟩

theorem Down.signalled (h : Down w) : w.signalled = none := by
  cases hc : w.shell.currentCmd with
  | none => simp [World.signalled, hc]
  | some cmd =>
      obtain ⟨obj, hobj, hlow⟩ := h cmd hc
      rw [World.object] at hobj
      simp [World.signalled, hc, hobj, hlow]

/-- **What is signalled**, where the assertion holds. -/
theorem Aimed.right (h : Aimed w) (hpid : w.signalled = some pid) (hforked : pid ≠ -1)
    (hwaited : w.waited ≠ some .ended) : ∃ cmd ∈ w.shell.currentCmd, Owns w cmd pid := by
  cases hc : w.shell.currentCmd with
  | none => simp [World.signalled, hc] at hpid
  | some cmd =>
      obtain ⟨obj, hobj, hup⟩ := h cmd hc
      have hobj' := hobj
      rw [World.object] at hobj'
      cases hfg : obj.foreground with
      | false => simp [World.signalled, hc, hobj', hfg] at hpid
      | true =>
          obtain rfl : obj.pid = pid := by simpa [World.signalled, hc, hobj', hfg] using hpid
          obtain hended | hfailed | howns := hup hfg
          · exact absurd hended hwaited
          · exact absurd hfailed hforked
          · exact ⟨cmd, rfl, howns⟩

/-- A child's command is known by its pid. -/
theorem Owned.cmd_eq (h : Owned w) (howns : Owns w cmd pid) {ch : Child} (hch : ch ∈ w.children)
    (hpid : ch.pid = pid) : ch.cmd = some cmd := by
  obtain ⟨-, ch', hch', hpid', hcmd'⟩ := howns
  rw [List.inj_on_of_nodup_map h.nodup hch hch' (hpid.trans hpid'.symm)]
  exact hcmd'

/-! ## Changes -/

theorem Held.mono (h : Held w cmd pid) (hch : ∀ ch ∈ w.children, ∃ ch' ∈ w'.children,
    ch'.pid = ch.pid ∧ ch'.cmd = ch.cmd) : Held w' cmd pid := by
  obtain rfl | ⟨hpos, ch, hmem, hpid, hcmd⟩ := h
  · exact .inl rfl
  · obtain ⟨ch', hmem', hpid', hcmd'⟩ := hch ch hmem
    exact .inr ⟨hpos, ch', hmem', hpid'.trans hpid, hcmd'.trans hcmd⟩

/-- Where the command's children stay, it does. -/
theorem Held.reap {pids : List Int} (h : Held w cmd pid)
    (hch : w'.children = w.children.filter fun ch => decide (ch.pid ∉ pids))
    (hstay : ∀ ch ∈ w.children, ch.cmd = some cmd → ch.pid ∉ pids) : Held w' cmd pid := by
  obtain rfl | ⟨hpos, ch, hmem, hpid, hcmd⟩ := h
  · exact .inl rfl
  · refine .inr ⟨hpos, ch, ?_, hpid, hcmd⟩
    rw [hch]
    exact List.mem_filter.mpr ⟨hmem, by simpa using hstay ch hmem hcmd⟩

theorem Owned.reap (h : Owned w) (pids : List Int)
    (hch : w'.children = w.children.filter fun ch => decide (ch.pid ∉ pids))
    (hjobs : ∀ e ∈ w'.shell.jobs.jobsList, e ∈ w.shell.jobs.jobsList ∧
      ∀ ch ∈ w.children, ch.cmd = some e.cmd → ch.pid ∉ pids) : Owned w' := by
  refine ⟨?_, fun e he => ?_⟩
  · rw [hch]
    exact h.nodup.sublist (List.filter_sublist.map _)
  · obtain ⟨hmem, hstay⟩ := hjobs e he
    exact (h.jobs e hmem).reap hch hstay

/-- One more child. -/
theorem Owned.fork (h : Owned w) {c : Option Nat} (hnew : ∀ ch ∈ w.children, ch.pid ≠ pid)
    (hjobs : w'.shell.jobs = w.shell.jobs)
    (hch : w'.children = w.children ++ [⟨pid, c, .running⟩]) : Owned w' := by
  refine ⟨?_, fun e he => ?_⟩
  · rw [hch, List.map_append]
    refine List.nodup_append.mpr ⟨h.nodup, List.nodup_singleton _, ?_⟩
    intro q hq q' hq'
    obtain ⟨ch, hmem, rfl⟩ := List.mem_map.mp hq
    rw [List.mem_singleton.mp hq']
    exact hnew ch hmem
  · refine (h.jobs e (hjobs ▸ he)).mono fun ch hmem => ⟨ch, ?_, rfl, rfl⟩
    rw [hch]
    exact List.mem_append_left _ hmem

/-- The same children, and entries of the same commands or of one that is held. -/
theorem Owned.listed (h : Owned w) (hheld : Held w cmd pid) (hch : w'.children = w.children)
    (hjobs : ∀ e ∈ w'.shell.jobs.jobsList, e.cmd = cmd ∧ e.pid = pid ∨
      ∃ e' ∈ w.shell.jobs.jobsList, e'.cmd = e.cmd ∧ e'.pid = e.pid) : Owned w' := by
  refine ⟨hch ▸ h.nodup, fun e he => ?_⟩
  have hstay : ∀ ch ∈ w.children, ∃ ch' ∈ w'.children, ch'.pid = ch.pid ∧ ch'.cmd = ch.cmd :=
    fun ch hmem => ⟨ch, hch ▸ hmem, rfl, rfl⟩
  obtain ⟨rfl, rfl⟩ | ⟨e', he', hcmd, hpid⟩ := hjobs e he
  · exact hheld.mono hstay
  · exact hcmd ▸ hpid ▸ (h.jobs e' he').mono hstay

theorem Owned.fewer (h : Owned w) (hch : w'.children = w.children)
    (hjobs : ∀ e ∈ w'.shell.jobs.jobsList,
      ∃ e' ∈ w.shell.jobs.jobsList, e'.cmd = e.cmd ∧ e'.pid = e.pid) : Owned w' :=
  h.listed (.inl rfl : Held w 0 (-1)) hch fun e he => .inr (hjobs e he)

/-! ## What a run is asked for -/

/-- No entry whose wait reports a child has pid -1. -/
def NamedJobs (w : World) (reaped : List (Int × Int)) : Prop :=
  ∀ r ∈ reaped, ∀ e ∈ w.shell.jobs.jobsList, e.jobId = r.1 → e.pid ≠ -1

instance (w : World) (reaped : List (Int × Int)) : Decidable (NamedJobs w reaped) :=
  inferInstanceAs (Decidable (∀ r ∈ reaped, ∀ e ∈ w.shell.jobs.jobsList, _ → _))

/-- No wait for -1, which is what a failed `fork` leaves, reaps a child. -/
def Named : Op → World → Reply → Prop
  | .waitpid pid _, _, .ended _ => pid ≠ -1
  | .removeFinishedJobs, w, .finished reaped => NamedJobs w reaped
  | _, _, _ => True

def NamedIn (_ : Option Op) (w : World) : Interrupt → Prop
  | .alarm reaped _ _ => NamedJobs w reaped
  | _ => True

instance (op : Op) (w : World) (r : Reply) : Decidable (Named op w r) := by
  induction op using Op.casesOn with
  | waitpid pid untraced =>
      induction r using Reply.casesOn with
      | ended q => exact inferInstanceAs (Decidable (pid ≠ -1))
      | _ => exact .isTrue trivial
  | removeFinishedJobs =>
      induction r using Reply.casesOn with
      | finished reaped => exact inferInstanceAs (Decidable (NamedJobs w reaped))
      | _ => exact .isTrue trivial
  | _ => exact .isTrue trivial

instance (op : Option Op) (w : World) (e : Interrupt) : Decidable (NamedIn op w e) := by
  induction e using Interrupt.casesOn with
  | alarm reaped exist killOk => exact inferInstanceAs (Decidable (NamedJobs w reaped))
  | _ => exact .isTrue trivial

/-- The statements from `fork` to `SetPid`. -/
def launching : Op → Bool
  | .fork (some _) | .setPid .. => true
  | .error msg => msg = "smash error: fork failed".toList
  | _ => false

/-! ## The outline -/

/-- What is added to the base assertions. -/
def aimedAt : Point → World → Prop
  | .rest, w => (w.shell.run = true → Owned w) ∧ Down w
  | .idle, w => Owned w ∧ Down w
  | .created b cmd, w => (Owned w ∧ Down w) ∧ (b = true → Lowered w cmd)
  | .current b cmd, w => Owned w ∧ (b = true → Lowered w cmd)
  | .forked b cmd pid, w => (Owned w ∧ (b = true → Lowered w cmd)) ∧ Held w cmd pid
  | .started b cmd pid, w => (Owned w ∧ (b = true → Lowered w cmd)) ∧ Held w cmd pid
  | .stopped cmd pid, w => Owned w ∧ Held w cmd pid
  | .chosen _, w => Owned w ∧ Down w
  | .taken e, w => (Owned w ∧ Down w) ∧ Held w e.cmd e.pid
  | .raised e, w => (Owned w ∧ ∀ cmd ∈ w.shell.currentCmd, cmd ≠ e.cmd → Lowered w cmd) ∧
      Held w e.cmd e.pid
  | .resumed e, w => Owned w ∧ Held w e.cmd e.pid
  | .stoppedAgain e, w => Owned w ∧ Held w e.cmd e.pid
  | .piping pids, w => (Owned w ∧ Down w) ∧
      ∀ p ∈ pids, p ≠ -1 → ∀ ch ∈ w.children, ch.pid = p → ch.cmd = none
  | .quitting _, w => Down w
  | .finished, w => (w.shell.run = true → Owned w) ∧ Aimed w
  | .lowering _, w => (w.shell.run = true → Owned w) ∧ Aimed w

/-- What the assertions outlast: no child reaped, no pid set, no flag raised,
no entry added. -/
structure Calmer (w w' : World) : Prop where
  nodup : (w.children.map Child.pid).Nodup → (w'.children.map Child.pid).Nodup
  kept : ∀ ch ∈ w.children, ∃ ch' ∈ w'.children, ch'.pid = ch.pid ∧ ch'.cmd = ch.cmd
  old : ∀ ch' ∈ w'.children, ∃ ch ∈ w.children, ch.pid = ch'.pid ∧ ch.cmd = ch'.cmd
  currentCmd : w'.shell.currentCmd = w.shell.currentCmd
  object : ∀ cmd obj, w.object cmd = some obj → ∃ obj', w'.object cmd = some obj' ∧
    obj'.pid = obj.pid ∧ (obj'.foreground = true → obj.foreground = true)
  jobs : ∀ e ∈ w'.shell.jobs.jobsList,
    ∃ e' ∈ w.shell.jobs.jobsList, e'.cmd = e.cmd ∧ e'.pid = e.pid
  waited : w'.waited = w.waited
  run : w'.shell.run = w.shell.run

namespace Calmer

variable (h : Calmer w w')
include h

theorem held (hw : Held w cmd pid) : Held w' cmd pid := hw.mono h.kept

theorem owned (hw : Owned w) : Owned w' := by
  refine ⟨h.nodup hw.nodup, fun e he => ?_⟩
  obtain ⟨e', he', hcmd, hpid⟩ := h.jobs e he
  exact hcmd ▸ hpid ▸ h.held (hw.jobs e' he')

theorem lowered (hw : Lowered w cmd) : Lowered w' cmd := by
  obtain ⟨obj, hobj, hlow⟩ := hw
  obtain ⟨obj', hobj', -, hup⟩ := h.object cmd obj hobj
  refine ⟨obj', hobj', Bool.eq_false_iff.mpr fun hfg => ?_⟩
  rw [hlow] at hup
  cases hup hfg

theorem down (hw : Down w) : Down w' := fun cmd hc => h.lowered (hw cmd (h.currentCmd ▸ hc))

theorem aimed (hw : Aimed w) : Aimed w' := by
  intro cmd hc
  obtain ⟨obj, hobj, hup⟩ := hw cmd (h.currentCmd ▸ hc)
  obtain ⟨obj', hobj', hpid, hfg⟩ := h.object cmd obj hobj
  refine ⟨obj', hobj', fun hfg' => ?_⟩
  rw [h.waited, hpid]
  exact (hup (hfg hfg')).imp_right h.held

/-- **Calm changes.** -/
theorem aimedAt (hw : aimedAt pt w) : aimedAt pt w' := by
  cases pt with
  | rest => exact ⟨fun hr => h.owned (hw.1 (h.run ▸ hr)), h.down hw.2⟩
  | idle | chosen => exact ⟨h.owned hw.1, h.down hw.2⟩
  | created => exact ⟨⟨h.owned hw.1.1, h.down hw.1.2⟩, fun hb => h.lowered (hw.2 hb)⟩
  | current => exact ⟨h.owned hw.1, fun hb => h.lowered (hw.2 hb)⟩
  | forked | started =>
      exact ⟨⟨h.owned hw.1.1, fun hb => h.lowered (hw.1.2 hb)⟩, h.held hw.2⟩
  | stopped | resumed | stoppedAgain => exact ⟨h.owned hw.1, h.held hw.2⟩
  | taken => exact ⟨⟨h.owned hw.1.1, h.down hw.1.2⟩, h.held hw.2⟩
  | raised =>
      refine ⟨⟨h.owned hw.1.1, fun cmd hc hne => ?_⟩, h.held hw.2⟩
      exact h.lowered (hw.1.2 cmd (h.currentCmd ▸ hc) hne)
  | piping =>
      refine ⟨⟨h.owned hw.1.1, h.down hw.1.2⟩, fun p hp hne ch hch hpid => ?_⟩
      obtain ⟨ch', hch', hpid', hcmd'⟩ := h.old ch hch
      rw [← hcmd']
      exact hw.2 p hp hne ch' hch' (hpid'.trans hpid)
  | quitting => exact h.down hw
  | finished | lowering => exact ⟨fun hr => h.owned (hw.1 (h.run ▸ hr)), h.aimed hw.2⟩

end Calmer

/-! ## Calm changes -/

/-- Only the shell's other variables differ, or the history of children. -/
theorem Calmer.of_eq (hch : w'.children = w.children) (hobj : w'.object = w.object)
    (hcur : w'.shell.currentCmd = w.shell.currentCmd)
    (hjobs : ∀ e ∈ w'.shell.jobs.jobsList,
      ∃ e' ∈ w.shell.jobs.jobsList, e'.cmd = e.cmd ∧ e'.pid = e.pid)
    (hwaited : w'.waited = w.waited) (hrun : w'.shell.run = w.shell.run) : Calmer w w' where
  nodup h := hch ▸ h
  kept ch hmem := ⟨ch, hch ▸ hmem, rfl, rfl⟩
  old ch hmem := ⟨ch, hch ▸ hmem, rfl, rfl⟩
  currentCmd := hcur
  object cmd obj h := ⟨obj, by rw [hobj, h], rfl, id⟩
  jobs := hjobs
  waited := hwaited
  run := hrun

theorem calmer_same (hs : w.Same w') : Calmer w w' :=
  .of_eq hs.children (funext hs.object) hs.currentCmd (fun e he => ⟨e, hs.jobs ▸ he, rfl, rfl⟩)
    hs.waited hs.run

theorem calmer_jobs (j : JobsList → JobsList) (hj : ∀ e ∈ (j w.shell.jobs).jobsList,
    ∃ e' ∈ w.shell.jobs.jobsList, e'.cmd = e.cmd ∧ e'.pid = e.pid) : Calmer w (w.onJobs j) :=
  .of_eq rfl rfl rfl hj rfl rfl

theorem calmer_times (f : ShellVars → List TimeEntry) :
    Calmer w (w.setVars fun v => { v with times := f v }) :=
  .of_eq rfl rfl rfl (fun e he => ⟨e, he, rfl, rfl⟩) rfl rfl

/-- An update of one object that keeps the pid and raises no flag. -/
theorem calmer_command (cmd : Nat) (g : CommandObj → CommandObj)
    (hg : ∀ obj, (g obj).pid = obj.pid ∧ ((g obj).foreground = true → obj.foreground = true)) :
    Calmer w (w.onCommand cmd g) where
  nodup := id
  kept ch hmem := ⟨ch, hmem, rfl, rfl⟩
  old ch hmem := ⟨ch, hmem, rfl, rfl⟩
  currentCmd := rfl
  object c obj h := by
    rw [World.object_onCommand, h]
    split
    · exact ⟨g obj, rfl, hg obj⟩
    · exact ⟨obj, rfl, rfl, id⟩
  jobs e he := ⟨e, he, rfl, rfl⟩
  waited := rfl
  run := rfl

theorem calmer_lower (cmd : Nat) :
    Calmer w (w.onCommand cmd fun obj => { obj with foreground := false }) :=
  calmer_command cmd _ fun _ => ⟨rfl, by simp⟩

theorem calmer_new {kind : Kind} {cmdLine : Text} {r : Reply}
    (hw : w.newCommand kind cmdLine r = (cmd, w')) : Calmer w w' := by
  have hobj := fun c obj (h : w.object c = some obj) => World.object_new hw h
  cases hw
  refine ⟨id, fun ch h => ⟨ch, h, rfl, rfl⟩, fun ch h => ⟨ch, h, rfl, rfl⟩, rfl,
    fun c obj h => ⟨obj, hobj c obj h, rfl, id⟩, fun e he => ⟨e, he, rfl, rfl⟩, rfl, rfl⟩

theorem calmer_child {status : Status} (h : w.changeChild pid status = some w') :
    Calmer w w' := by
  rw [World.changeChild] at h
  split at h
  · cases h
    have hsame : ∀ ch : Child, (if ch.pid = pid then { ch with status := status } else ch).pid =
        ch.pid ∧ (if ch.pid = pid then { ch with status := status } else ch).cmd = ch.cmd := by
      intro ch
      split <;> exact ⟨rfl, rfl⟩
    refine ⟨fun hn => ?_, fun ch hmem => ?_, fun ch hmem => ?_, rfl,
      fun c obj h => ⟨obj, h, rfl, id⟩, fun e he => ⟨e, he, rfl, rfl⟩, rfl, rfl⟩
    · rw [List.map_map]
      exact (List.map_congr_left (g := Child.pid) fun ch _ => (hsame ch).1) ▸ hn
    · exact ⟨_, List.mem_map_of_mem hmem, hsame ch⟩
    · obtain ⟨ch', hmem', rfl⟩ := List.mem_map.mp hmem
      exact ⟨ch', hmem', (hsame ch').1.symm, (hsame ch').2.symm⟩
  · cases h

/-! ## Children reaped -/

/-- **`removeFinishedJobs`** reaps children of the entries it takes out. -/
theorem swept_stays {reaped : List (Int × Int)} (hs : Swept w reaped w') (h : Owned w)
    (hn : NamedJobs w reaped)
    (hcmd : ∀ e ∈ w.shell.jobs.jobsList, e.jobId ∈ reaped.map Prod.fst → e.cmd ≠ cmd) :
    ∀ ch ∈ w.children, ch.cmd = some cmd → ch.pid ∉ reaped.map Prod.snd := by
  intro ch hch hc hmem
  obtain ⟨r, hr, hpid⟩ := List.mem_map.mp hmem
  obtain ⟨-, e, he, hid, haddr⟩ := hs.can.2.2 r hr
  have hne : e.pid ≠ -1 := hn r hr e he hid
  obtain haddr | haddr := haddr
  · have howns : Owns w e.cmd e.pid := (h.jobs e he).resolve_left hne
    have hsame : ch.cmd = some e.cmd := h.cmd_eq howns hch (hpid.symm.trans haddr.symm)
    refine hcmd e he (List.mem_map.mpr ⟨r, hr, hid.symm⟩) ?_
    exact Option.some.inj (hsame.symm.trans hc)
  · exact hne haddr

theorem Owned.swept {held : List Nat} {reaped : List (Int × Int)} (h : Owned w)
    (hl : Linked held w) (hs : Swept w reaped w') (hn : NamedJobs w reaped) : Owned w' := by
  refine h.reap _ hs.children fun e he => ?_
  rw [hs.jobs] at he
  obtain ⟨hmem, hkept⟩ := List.mem_filter.mp he
  refine ⟨hmem, swept_stays hs h hn fun e' he' hid hcmd => ?_⟩
  have heq : e' = e := List.inj_on_of_nodup_map (hl.nodup.sublist (List.sublist_append_right ..))
    he' hmem hcmd
  rw [heq] at hid
  simp [hid] at hkept

theorem Held.swept {held : List Nat} {reaped : List (Int × Int)} (hheld : Held w cmd pid)
    (hcmd : cmd ∈ held) (h : Owned w) (hl : Linked held w) (hs : Swept w reaped w')
    (hn : NamedJobs w reaped) : Held w' cmd pid := by
  refine hheld.reap hs.children (swept_stays hs h hn fun e he _ heq => ?_)
  exact (List.nodup_append.mp hl.nodup).2.2 cmd hcmd e.cmd (List.mem_map_of_mem he) heq.symm

theorem lowered_removed {reaped : List (Int × Int)} (hw : w.removeFinishedJobs reaped = some w')
    (h : Lowered w cmd) : Lowered w' cmd := by
  obtain ⟨erased, hr⟩ := removed hw
  obtain ⟨obj, hobj, hlow⟩ := h
  rw [Lowered, hr.object, World.object_discard, hobj]
  refine ⟨_, rfl, ?_⟩
  split <;> exact hlow

theorem down_removed {reaped : List (Int × Int)} (hw : w.removeFinishedJobs reaped = some w')
    (h : Down w) : Down w' := by
  obtain ⟨erased, hr⟩ := removed hw
  exact fun cmd hc => lowered_removed hw (h cmd (hr.currentCmd ▸ hc))

theorem aimedAt_swept {reaped : List (Int × Int)} (hpt : pt.sweeps = true) (hl : linkedAt pt w)
    (h : aimedAt pt w) (hn : NamedJobs w reaped) (hw : w.removeFinishedJobs reaped = some w') :
    aimedAt pt w' := by
  cases pt with
  | rest =>
      refine ⟨fun hr => ?_, down_removed hw h.2⟩
      have hr' : w.shell.run = true := run_removeFinishedJobs hw ▸ hr
      exact (h.1 hr').swept (hl hr') (swept (hl hr').valid hw) hn
  | idle => exact ⟨h.1.swept hl (swept hl.valid hw) hn, down_removed hw h.2⟩
  | started b cmd pid =>
      have hs := swept hl.1.valid hw
      exact ⟨⟨h.1.1.swept hl.1 hs hn, fun hb => lowered_removed hw (h.1.2 hb)⟩,
        h.2.swept (by simp) h.1.1 hl.1 hs hn⟩
  | stopped cmd pid =>
      have hs := swept hl.1.valid hw
      exact ⟨h.1.swept hl.1 hs hn, h.2.swept (by simp) h.1 hl.1 hs hn⟩
  | resumed e | stoppedAgain e =>
      have hs := swept hl.1.linked.valid hw
      exact ⟨h.1.swept hl.1.linked hs hn, h.2.swept (by simp) h.1 hl.1.linked hs hn⟩
  | piping pids =>
      have hs := swept hl.valid hw
      refine ⟨⟨h.1.1.swept hl hs hn, down_removed hw h.1.2⟩, fun p hp hne ch hch hpid => ?_⟩
      rw [hs.children] at hch
      exact h.2 p hp hne ch (List.mem_filter.mp hch).1 hpid
  | _ => cases hpt

/-- **A wait that was answered**: the child of the command is gone. -/
theorem Owned.waited {q : Int} (h : Owned w) (hheld : Held w cmd pid) (hne : pid ≠ -1)
    (haddr : Addresses pid q) (hcmd : ∀ e ∈ w.shell.jobs.jobsList, e.cmd ≠ cmd)
    (hshell : w'.shell = w.shell) (hch : w'.children = (w.reap [q]).children) : Owned w' := by
  refine h.reap [q] hch fun e he => ?_
  rw [hshell] at he
  refine ⟨he, fun ch hmem hc hq => ?_⟩
  have hpid : ch.pid = pid := (List.mem_singleton.mp hq).trans (haddr.resolve_right hne).symm
  have hsame := h.cmd_eq (hheld.resolve_left hne) hmem hpid
  exact hcmd e he (Option.some.inj (hc.symm.trans hsame))

theorem Aimed.of_pid (hcur : w.shell.currentCmd = some cmd) (hpid : w.pidOf cmd = some pid)
    (h : w.waited = some .ended ∨ Held w cmd pid) : Aimed w := by
  intro c hc
  obtain rfl : cmd = c := Option.some.inj (hcur.symm.trans hc)
  obtain ⟨obj, hobj, rfl⟩ := Option.map_eq_some_iff.mp hpid
  exact ⟨obj, hobj, fun _ => h⟩

/-- The end of a wait for the command that is current. -/
theorem aimedAt_waited {how : Waited} {r : Reply} (hp : w.waitpid pid true r = some (how, w'))
    (hok : Named (.waitpid pid true) w r) (h : Owned w) (hheld : Held w cmd pid)
    (hcmd : ∀ e ∈ w.shell.jobs.jobsList, e.cmd ≠ cmd) (hcur : w.shell.currentCmd = some cmd)
    (hpid : w.pidOf cmd = some pid) :
    (how = .stopped ∧ Owned w' ∧ Held w' cmd pid) ∨
    (how ≠ .stopped ∧ Owned w' ∧ Aimed w') := by
  obtain ⟨hwaited, hshell, -, hcases⟩ := waitpid_cases hp
  have hjobs : ∀ e ∈ w'.shell.jobs.jobsList,
      ∃ e' ∈ w.shell.jobs.jobsList, e'.cmd = e.cmd ∧ e'.pid = e.pid :=
    fun e he => ⟨e, hshell ▸ he, rfl, rfl⟩
  have hstay : w'.children = w.children → Held w' cmd pid := fun hch =>
    hheld.mono fun ch hmem => ⟨ch, hch ▸ hmem, rfl, rfl⟩
  have haim : w'.waited = some .ended ∨ Held w' cmd pid → Aimed w' := by
    refine Aimed.of_pid (by rw [hshell, hcur]) ?_
    rwa [World.pidOf, World.object, hshell]
  obtain ⟨-, rfl, hch⟩ | ⟨q, rfl, rfl, haddr, -, hch⟩ | ⟨q, -, rfl, -, -, hch⟩ := hcases
  · exact .inr ⟨by simp, h.fewer hch hjobs, haim (.inr (hstay hch))⟩
  · exact .inr ⟨by simp, h.waited hheld hok haddr hcmd hshell hch, haim (.inl hwaited)⟩
  · exact .inl ⟨rfl, h.fewer hch hjobs, hstay hch⟩

/-- What a held command is not. -/
theorem Linked.ne_held {c : Nat} (h : Linked [c] w) :
    ∀ e ∈ w.shell.jobs.jobsList, e.cmd ≠ c :=
  fun _ he heq => (List.nodup_cons.mp h.nodup).1 (heq ▸ List.mem_map_of_mem he)

theorem aimedAt_moves {op : Op} {next : Resp op → Point} {r : Reply} {a : Resp op}
    (h : Moves pt op next) (hl : linkedAt pt w) (hw : aimedAt pt w) (hok : Named op w r)
    (hp : perform op w r = some (a, w')) : aimedAt (next a) w' := by
  cases h with
  | quiet _ hq => exact (calmer_same (perform_quiet hq hp)).aimedAt hw
  | forkFailed => exact (calmer_same (perform_quiet (.error _) hp)).aimedAt hw
  | new kind cmdLine =>
      have hc := calmer_new (Option.some.inj hp)
      exact ⟨⟨hc.owned hw.1, hc.down hw.2⟩, by simp⟩
  | background cmd =>
      have hlt : cmd < w.shell.commands.length := hl.bound cmd (by simp)
      cases hp
      have hc := calmer_lower (w := w) cmd
      refine ⟨⟨hc.owned hw.1.1, hc.down hw.1.2⟩, fun _ => ?_⟩
      refine ⟨{ w.shell.commands[cmd] with foreground := false }, ?_, rfl⟩
      rw [World.object_onCommand, if_pos rfl, World.object, List.getElem?_eq_getElem hlt]
      rfl
  | setCommand b cmd =>
      cases hp
      exact ⟨hw.1.1.fewer rfl fun e he => ⟨e, he, rfl, rfl⟩, hw.2⟩
  | fork b cmd =>
      rcases fork_cases hp with ⟨-, rfl, rfl⟩ | ⟨-, hpos, hnew, rfl⟩
      · exact ⟨hw, .inl rfl⟩
      · refine ⟨⟨hw.1.fork hnew rfl rfl, hw.2⟩, .inr ⟨hpos, ⟨a, some cmd, .running⟩, ?_, rfl, rfl⟩⟩
        simp
  | forkPipe pids =>
      rcases fork_cases hp with ⟨-, rfl, rfl⟩ | ⟨-, hpos, hnew, rfl⟩
      · refine ⟨hw.1, fun p hp hne => hw.2 p ?_ hne⟩
        rcases List.mem_append.mp hp with hp | hp
        · exact hp
        · exact absurd (List.mem_singleton.mp hp) hne
      · refine ⟨⟨hw.1.1.fork hnew rfl rfl, hw.1.2⟩, fun p hp hne ch hch hpid => ?_⟩
        rcases List.mem_append.mp hch with hch | hch
        · rcases List.mem_append.mp hp with hp | hp
          · exact hw.2 p hp hne ch hch hpid
          · exact absurd (hpid.trans (List.mem_singleton.mp hp)) (hnew ch hch)
        · rw [List.mem_singleton.mp hch]
  | setPid b cmd pid =>
      cases hp
      refine ⟨⟨hw.1.1.fewer rfl fun e he => ⟨e, he, rfl, rfl⟩, fun hb => ?_⟩, hw.2⟩
      obtain ⟨obj, hobj, hlow⟩ := hw.1.2 hb
      refine ⟨{ obj with pid := pid }, ?_, hlow⟩
      rw [World.object_onCommand, if_pos rfl, hobj]
      rfl
  | addTime b cmd pid duration =>
      cases hp
      have hc := calmer_times (w := w) fun v =>
        TimesList.addToTimesList v.times cmd pid duration w.now
      exact ⟨⟨hc.owned hw.1.1, fun hb => hc.lowered (hw.1.2 hb)⟩, hc.held hw.2⟩
  | sweep hpt =>
      cases r with
      | finished reaped =>
          obtain ⟨w₁, hw₁, he⟩ := Option.map_eq_some_iff.mp hp
          cases he
          exact aimedAt_swept (Point.sweeps_of_removes hpt) hl hw hok hw₁
      | _ => cases hp
  | list cmd pid =>
      cases hp
      refine ⟨fun _ => hw.1.1.listed hw.2 rfl fun e he => ?_, Down.aimed fun c hc => ?_⟩
      · rcases List.mem_append.mp he with he | he
        · exact .inr ⟨e, he, rfl, rfl⟩
        · exact .inl (List.mem_singleton.mp he ▸ ⟨rfl, rfl⟩)
      · obtain rfl : cmd = c := Option.some.inj (hl.2.1.symm.trans hc)
        exact hw.1.2 rfl
  | listStopped cmd pid =>
      cases hp
      refine ⟨fun _ => hw.1.listed hw.2 rfl fun e he => ?_, .of_pid hl.2.1 hl.2.2 (.inr hw.2)⟩
      rcases List.mem_append.mp he with he | he
      · exact .inr ⟨e, he, rfl, rfl⟩
      · exact .inl (List.mem_singleton.mp he ▸ ⟨rfl, rfl⟩)
  | wait cmd pid =>
      rcases aimedAt_waited hp hok hw.1.1 hw.2 hl.1.ne_held hl.2.1 hl.2.2 with
        ⟨rfl, howned, hheld⟩ | ⟨hne, howned, haimed⟩
      · exact ⟨howned, hheld⟩
      · cases a with
        | stopped => exact absurd rfl hne
        | failed | ended => exact ⟨fun _ => howned, haimed⟩
  | waitAgain e =>
      rcases aimedAt_waited hp hok hw.1 hw.2 hl.1.linked.ne_held hl.2 hl.1.pid with
        ⟨rfl, howned, hheld⟩ | ⟨hne, howned, haimed⟩
      · exact ⟨howned, hheld⟩
      · cases a with
        | stopped => exact absurd rfl hne
        | failed | ended => exact ⟨fun _ => howned, haimed⟩
  | take e =>
      cases hp
      have hc : Calmer w (w.onJobs fun j => j.removeJobById e.jobId) := by
        refine calmer_jobs _ fun e' he' => ?_
        rw [hl.1.valid.removeJobById] at he'
        exact ⟨e', (List.mem_filter.mp he').1, rfl, rfl⟩
      exact ⟨⟨hc.owned hw.1, hc.down hw.2⟩, hc.held (hw.1.jobs e hl.2)⟩
  | raise e =>
      cases hp
      refine ⟨⟨hw.1.1.fewer rfl fun e' he' => ⟨e', he', rfl, rfl⟩, fun c hc hne => ?_⟩, hw.2⟩
      rw [Lowered, World.object_onCommand, if_neg (Ne.symm hne)]
      exact hw.1.2 c hc
  | front e =>
      cases hp
      exact ⟨hw.1.1.fewer rfl fun e' he' => ⟨e', he', rfl, rfl⟩, hw.2⟩
  | cont e =>
      obtain ⟨rfl, ⟨rfl, -⟩ | ⟨rfl, -⟩⟩ := kill_eq hp
      · exact hw
      · exact ⟨fun _ => hw.1, .of_pid hl.2 hl.1.pid (.inr hw.2)⟩
  | relist e =>
      cases hp
      have hperm := (hl.1.linked.valid.addJobWithId e.cmd e.pid true hl.1.pos hl.1.out).2
      refine ⟨fun _ => hw.1.listed hw.2 rfl fun e' he' => ?_, .of_pid hl.2 hl.1.pid (.inr hw.2)⟩
      rcases List.mem_cons.mp (hperm.subset he') with rfl | he'
      · exact .inl ⟨rfl, rfl⟩
      · exact .inr ⟨e', he', rfl, rfl⟩
  | signal e signum =>
      obtain ⟨rfl, -⟩ := kill_eq hp
      exact hw
  | flag e b =>
      cases hp
      have hc : Calmer w (w.onJobs fun j => j.setIsStopped e.jobId b) := by
        refine calmer_jobs _ fun e' he' => ?_
        obtain ⟨e₀, he₀, rfl⟩ := List.mem_map.mp he'
        refine ⟨e₀, he₀, ?_⟩
        split <;> exact ⟨rfl, rfl⟩
      exact ⟨hc.owned hw.1, hc.down hw.2⟩
  | waitPipe p pids =>
      obtain ⟨hwaited, hshell, -, hcases⟩ := waitpid_cases hp
      have hdown : Down w' := by
        intro c hc
        rw [Lowered, World.object, hshell]
        exact hw.1.2 c (hshell ▸ hc)
      have hjobs : ∀ e ∈ w'.shell.jobs.jobsList, e ∈ w.shell.jobs.jobsList :=
        fun e he => hshell ▸ he
      rw [Point.reapedTo]
      obtain ⟨-, rfl, hch⟩ | ⟨q, rfl, rfl, haddr, -, hch⟩ | ⟨q, rfl, rfl, -, -, hch⟩ := hcases
      · exact ⟨fun _ => hw.1.1.fewer hch fun e he => ⟨e, hjobs e he, rfl, rfl⟩, hdown.aimed⟩
      · -- the child reaped is the pipe's
        have hq : q = p := (haddr.resolve_right hok).symm
        refine ⟨⟨hw.1.1.reap [q] hch fun e he => ⟨hjobs e he, fun ch hmem hc hpid => ?_⟩,
          hdown⟩, fun p' hp' hne ch hmem hpid => ?_⟩
        · have hnone := hw.2 p (by simp) hok ch hmem ((List.mem_singleton.mp hpid).trans hq)
          cases hnone.symm.trans hc
        · rw [hch] at hmem
          exact hw.2 p' (by simp [hp']) hne ch (List.mem_filter.mp hmem).1 hpid
      · refine ⟨⟨hw.1.1.fewer hch fun e he => ⟨e, hjobs e he, rfl, rfl⟩, hdown⟩,
          fun p' hp' hne ch hmem hpid => ?_⟩
        rw [hch] at hmem
        exact hw.2 p' (by simp [hp']) hne ch hmem hpid
  | lower cmd =>
      cases hp
      refine ⟨fun hr => (calmer_lower (w := w) cmd).owned (hw.1 hr), fun c hc => ?_⟩
      obtain rfl : cmd = c := Option.some.inj (hl.2.symm.trans hc)
      obtain ⟨obj, hobj, -⟩ := hw.2 cmd hl.2
      refine ⟨{ obj with foreground := false }, ?_, rfl⟩
      rw [World.object_onCommand, if_pos rfl, hobj]
      rfl
  | killEach e l =>
      obtain ⟨rfl, -⟩ := kill_eq hp
      exact hw
  | delete e l =>
      cases hp
      exact (calmer_command e.cmd (fun obj => { obj with discarded := true })
        fun _ => ⟨rfl, id⟩).down hw
  | clear l =>
      cases hp
      exact hw
  | leave l =>
      cases hp
      have haimed : Aimed w := Down.aimed hw
      exact ⟨fun hr => (by cases hr), haimed⟩

theorem aimedAt_becomes {pt' : Point} (h : Becomes w pt pt') (hw : aimedAt pt w) :
    aimedAt pt' w := by
  cases h with
  | begin hr => exact ⟨hw.1 hr, hw.2⟩
  | drop b cmd => exact hw.1
  | choose e he => exact hw
  | keep e => exact hw
  | pipe => exact ⟨hw, by simp⟩
  | piped => exact ⟨fun _ => hw.1.1, hw.1.2.aimed⟩
  | quit l hl => exact hw.2
  | finish => exact ⟨fun _ => hw.1, hw.2.aimed⟩
  | lowering cmd hc => exact hw
  | none hc => exact ⟨hw.1, fun cmd h => by rw [hc] at h; cases h⟩

theorem aimedAt_stable {op : Option Op} {e : Interrupt}
    (hpt : waiting op = true → pt.sweeps = true) (hl : linkedAt pt w) (hw : aimedAt pt w)
    (hcalm : NamedIn op w e) (hi : interrupt op w e = some w') : aimedAt pt w' := by
  cases interrupt_cases hi with
  | child h => exact (calmer_child h).aimedAt hw
  | same h => exact (calmer_same h).aimedAt hw
  | lower cmd hc => exact (calmer_lower cmd).aimedAt hw
  | alarm hop hw₁ times htimes h =>
      refine (calmer_same h).aimedAt ((calmer_times _).aimedAt ?_)
      exact aimedAt_swept (hpt hop) hl hw hcalm hw₁

/-- Before any statement but those from `fork` to `SetPid`. -/
def AimedBefore (op : Op) (w : World) : Prop := launching op = false → Aimed w

theorem aimedBefore {op : Op} {next : Resp op → Point} (h : Moves pt op next) (hl : linkedAt pt w)
    (hw : aimedAt pt w) : AimedBefore op w := by
  intro hop
  cases pt with
  | rest => exact hw.2.aimed
  | idle | chosen => exact hw.2.aimed
  | created => exact hw.1.2.aimed
  -- the statements there are those on the way to `SetPid`
  | current =>
      cases h with
      | quiet _ _ hpt => cases hpt
      | sweep hpt => cases hpt
      | fork => cases hop
  | forked =>
      cases h with
      | quiet _ _ hpt => cases hpt
      | sweep hpt => cases hpt
      | forkFailed => simp [launching] at hop
      | setPid => cases hop
  | started b cmd pid => exact .of_pid hl.2.1 hl.2.2 (.inr hw.2)
  | stopped cmd pid => exact .of_pid hl.2.1 hl.2.2 (.inr hw.2)
  | taken => exact hw.1.2.aimed
  | raised e =>
      intro cmd hc
      by_cases heq : cmd = e.cmd
      · subst heq
        obtain ⟨obj, hobj, hpid⟩ := Option.map_eq_some_iff.mp hl.pid
        exact ⟨obj, hobj, fun _ => .inr (hpid ▸ hw.2)⟩
      · obtain ⟨obj, hobj, hlow⟩ := hw.1.2 cmd hc heq
        exact ⟨obj, hobj, fun hup => by rw [hlow] at hup; cases hup⟩
  | resumed e | stoppedAgain e => exact .of_pid hl.2 hl.1.pid (.inr hw.2)
  | piping => exact hw.1.2.aimed
  | quitting => exact Down.aimed hw
  | finished | lowering => exact hw.2

end

def aimedOutline : Outline Named NamedIn AimedBefore where
  inv pt w := linkedAt pt w ∧ aimedAt pt w
  moves h hw := ⟨aimedBefore h hw.1 hw.2, fun _ _ _ hok hp =>
    ⟨linkedAt_moves h hw.1 hp, aimedAt_moves h hw.1 hw.2 hok hp⟩⟩
  becomes h hw := ⟨linkedAt_becomes h hw.1, aimedAt_becomes h hw.2⟩
  stable hpt hw hcalm hi := ⟨linkedAt_stable hpt hw.1 hi, aimedAt_stable hpt hw.1 hw.2 hcalm hi⟩
  front hw := hw.1.2

theorem start_aimed (now : Int) (cwd : Text) : aimedAt .rest (.start now cwd) := by
  refine ⟨fun _ => ⟨?_, ?_⟩, ?_⟩ <;> simp [Down, World.start, JobsList.empty]

/-! ## Delivery -/

/-- A moment at which a signal may come: nothing is signalled, or `SetPid` is
past, its `fork` did not fail, and the command has not been reaped. -/
def Clear (c : Config) : Prop :=
  ∀ pid ∈ c.state.signalled, (∀ op ∈ c.prog.head, launching op = false) ∧ pid ≠ -1 ∧
    c.state.waited ≠ some .ended

instance (c : Config) : Decidable (Clear c) :=
  inferInstanceAs (Decidable (∀ pid ∈ c.state.signalled,
    (∀ op ∈ c.prog.head, launching op = false) ∧ pid ≠ -1 ∧ c.state.waited ≠ some .ended))

def IsSignal : Event → Bool
  | .interrupt .ctrlC | .interrupt (.ctrlZ _) => true
  | _ => false

/-- Signals come only at such moments, and no wait for -1 reaps a child. -/
structure SignalMeets (c : Config) (e : Event) : Prop where
  named : Loop.Meets Named NamedIn c e
  clear : IsSignal e = true → Clear c

instance (c : Config) (e : Event) : Decidable (SignalMeets c e) :=
  decidable_of_iff (Loop.Meets Named NamedIn c e ∧ (IsSignal e = true → Clear c))
    ⟨fun h => ⟨h.1, h.2⟩, fun h => ⟨h.named, h.clear⟩⟩

/-- The command `a` up to its `SetCommand`. -/
def makeCurrent : List Event :=
  .input "a".toList :: [.finished [], .done, .done, .done].map .statement

/-- ... and from there to its wait. -/
def reachWait : List Event := makeCurrent ++ [.pid 100, .done].map .statement

end OsAllHw.Shell
