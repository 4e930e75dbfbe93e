import Mathlib
import OsAllHw.Shell.Linked

/-!
# No job is lost

With `fork`, `kill` and `waitpid` succeeding, the jobs list and the children
that `executeCommand` forked are the same at every prompt: children are reaped
in the foreground wait, in the wait of `fg` and in `removeFinishedJobs` (from
the main loop, from `jobs`, from the alarm handler), and each way the entry
goes with the child. In between, the child in the foreground is the one
difference (`Tracked`).
-/

namespace OsAllHw.Shell

open Lib

/-- The replies where `fork`, `kill` and `waitpid` do not fail. -/
def Succeeds : Op → World → Reply → Prop
  | .fork _, _, r => r ≠ .failed
  | .kill .., _, r => r ≠ .failed
  | .waitpid .., _, r => r ≠ .failed
  | _, _, _ => True

instance (op : Op) (w : World) (r : Reply) : Decidable (Succeeds op w r) := by
  induction op using Op.casesOn with
  | fork _ => exact inferInstanceAs (Decidable (r ≠ .failed))
  | kill _ _ => exact inferInstanceAs (Decidable (r ≠ .failed))
  | waitpid _ _ => exact inferInstanceAs (Decidable (r ≠ .failed))
  | _ => exact .isTrue trivial

/-- Any interruption. -/
def anyInterrupt (_ : Option Op) (_ : World) (_ : Interrupt) : Prop := True

instance (op : Option Op) (w : World) (e : Interrupt) : Decidable (anyInterrupt op w e) :=
  .isTrue trivial

namespace World

def jobPids (w : World) : List Int := w.shell.jobs.jobsList.map JobEntry.pid

/-- The children `executeCommand` forked that were not reaped. -/
def ownPids (w : World) : List Int :=
  (w.children.filter fun ch => ch.cmd.isSome).map Child.pid

end World

/-- The jobs list and `hidden` are the children of `executeCommand`. -/
structure Tracked (hidden : List Int) (w : World) : Prop where
  perm : (w.jobPids ++ hidden).Perm w.ownPids
  nodup : (w.children.map Child.pid).Nodup
  pos : ∀ ch ∈ w.children, 0 < ch.pid

namespace Tracked

variable {hidden : List Int} {w w' : World}

theorem congr (h : Tracked hidden w) (hjobs : w'.jobPids = w.jobPids)
    (hch : w'.children = w.children) : Tracked hidden w' := by
  refine ⟨?_, hch ▸ h.nodup, hch ▸ h.pos⟩
  rw [hjobs, World.ownPids, hch]
  exact h.perm

theorem own_nodup (h : Tracked hidden w) : (w.jobPids ++ hidden).Nodup :=
  h.perm.nodup_iff.mpr (h.nodup.sublist (List.filter_sublist.map _))

/-- A listed pid, or a hidden one, is a child's. -/
theorem pos_of_mem (h : Tracked hidden w) {p : Int} (hp : p ∈ w.jobPids ++ hidden) : 0 < p := by
  obtain ⟨ch, hch, rfl⟩ := List.mem_map.mp (h.perm.subset hp)
  exact h.pos ch (List.mem_filter.mp hch).1

theorem addresses (h : Tracked hidden w) {p q : Int} (hp : p ∈ w.jobPids ++ hidden)
    (ha : Addresses p q) : q = p := by
  have := h.pos_of_mem hp
  rcases ha with rfl | rfl
  · rfl
  · omega

theorem nodup_new (h : Tracked hidden w) {p : Int} (cmd : Option Nat)
    (hnew : ∀ ch ∈ w.children, ch.pid ≠ p) :
    ((w.children ++ [Child.mk p cmd .running]).map Child.pid).Nodup := by
  simp only [List.map_append, List.map_cons, List.map_nil]
  refine List.nodup_append.mpr ⟨h.nodup, List.nodup_singleton _, ?_⟩
  intro q hq q' hq'
  obtain ⟨ch, hch, rfl⟩ := List.mem_map.mp hq
  rw [List.mem_singleton.mp hq']
  exact hnew ch hch

theorem pos_new (h : Tracked hidden w) {p : Int} (cmd : Option Nat) (hp : 0 < p) :
    ∀ ch ∈ w.children ++ [⟨p, cmd, .running⟩], 0 < ch.pid := by
  intro ch hch
  rcases List.mem_append.mp hch with hch | hch
  · exact h.pos ch hch
  · rw [List.mem_singleton.mp hch]
    exact hp

/-- A new child is hidden at first. -/
theorem fork (h : Tracked [] w) {p : Int} {cmd : Nat} (hp : 0 < p)
    (hnew : ∀ ch ∈ w.children, ch.pid ≠ p) : Tracked [p] { w with
      children := w.children ++ [⟨p, some cmd, .running⟩]
      forked := w.forked ++ [p] } := by
  have hperm := h.perm
  rw [List.append_nil] at hperm
  refine ⟨?_, h.nodup_new _ hnew, h.pos_new _ hp⟩
  simp only [World.ownPids, List.filter_append, List.map_append]
  exact hperm.append_right [p]

/-- A child of a pipe is not among them. -/
theorem forkPipe (h : Tracked hidden w) {p : Int} (hp : 0 < p)
    (hnew : ∀ ch ∈ w.children, ch.pid ≠ p) : Tracked hidden { w with
      children := w.children ++ [⟨p, none, .running⟩]
      forked := w.forked ++ [p] } := by
  refine ⟨?_, h.nodup_new _ hnew, h.pos_new _ hp⟩
  refine h.perm.trans (.of_eq ?_)
  simp [World.ownPids, List.filter_append]

theorem ownPids_reap (w : World) (pids : List Int) :
    (w.reap pids).ownPids = w.ownPids.filter fun p => decide (p ∉ pids) := by
  rw [World.ownPids, World.ownPids, World.reap, List.filter_map, List.filter_filter,
    List.filter_filter]
  congr 1
  refine List.filter_congr fun ch _ => ?_
  exact Bool.and_comm ..

theorem reap (h : Tracked hidden w) (pids : List Int) {hidden' : List Int}
    (hjobs : w'.jobPids ++ hidden' =
      (w.jobPids ++ hidden).filter fun p => decide (p ∉ pids))
    (hch : w'.children = (w.reap pids).children) : Tracked hidden' w' := by
  refine ⟨?_, ?_, ?_⟩
  · rw [hjobs, World.ownPids, hch]
    exact (h.perm.filter _).trans (.of_eq (ownPids_reap w pids).symm)
  · rw [hch]
    exact h.nodup.sublist (List.filter_sublist.map _)
  · intro ch hmem
    rw [hch] at hmem
    exact h.pos ch (List.mem_filter.mp hmem).1

/-- The wait for the hidden child. -/
theorem reapHidden {p q : Int} (h : Tracked [p] w) (ha : Addresses p q)
    (hjobs : w'.jobPids = w.jobPids) (hch : w'.children = (w.reap [q]).children) :
    Tracked [] w' := by
  obtain rfl := h.addresses (by simp) ha
  refine h.reap [q] ?_ hch
  have hnotin : ∀ x ∈ w.jobPids, x ≠ q := by
    rintro x hx rfl
    exact (List.nodup_append.mp h.own_nodup).2.2 x hx x (by simp) rfl
  rw [hjobs, List.filter_append, List.append_nil, List.filter_eq_self.mpr (by simpa using hnotin)]
  simp

/-- The wait for a child of a pipe. -/
theorem reapPipe {p q : Int} (h : Tracked hidden w)
    (hp : ∃ ch ∈ w.children, ch.pid = p ∧ ch.cmd = none) (ha : Addresses p q)
    (hjobs : w'.jobPids = w.jobPids) (hch : w'.children = (w.reap [q]).children) :
    Tracked hidden w' ∧ q = p := by
  obtain ⟨ch, hmem, rfl, hcmd⟩ := hp
  have hpos := h.pos ch hmem
  have hq : q = ch.pid := by
    rcases ha with ha | ha
    · exact ha.symm
    · omega
  refine ⟨h.reap [q] ?_ hch, hq⟩
  rw [hjobs, List.filter_eq_self.mpr]
  intro x hx
  obtain ⟨ch', hch', hpid⟩ := List.mem_map.mp (h.perm.subset hx)
  obtain ⟨hch', hsome⟩ := List.mem_filter.mp hch'
  simp only [List.mem_singleton, decide_not, Bool.not_eq_true', decide_eq_false_iff_not]
  rintro rfl
  have : ch' = ch := List.inj_on_of_nodup_map h.nodup hch' hmem (hpid.trans hq)
  rw [this, hcmd] at hsome
  cases hsome

/-- `removeFinishedJobs` takes out the entries of the children it reaps. -/
theorem swept (h : Tracked hidden w) (hv : w.shell.jobs.Valid) {reaped : List (Int × Int)}
    (hs : Swept w reaped w') : Tracked hidden w' := by
  obtain ⟨-, -, hcan⟩ := hs.can
  have hnodup := h.own_nodup
  obtain ⟨hjn, -, hdisj⟩ := List.nodup_append.mp hnodup
  -- an entry's child is reaped exactly when its id is reported
  have hpid : ∀ r ∈ reaped, ∃ e ∈ w.shell.jobs.jobsList, e.jobId = r.1 ∧ r.2 = e.pid := by
    intro r hr
    obtain ⟨-, e, he, hid, ha⟩ := hcan r hr
    exact ⟨e, he, hid, h.addresses (List.mem_append_left _ (List.mem_map_of_mem he)) ha⟩
  have hiff : ∀ e ∈ w.shell.jobs.jobsList,
      (e.pid ∈ reaped.map Prod.snd ↔ e.jobId ∈ reaped.map Prod.fst) := by
    intro e he
    constructor
    · intro hm
      obtain ⟨r, hr, hre⟩ := List.mem_map.mp hm
      obtain ⟨e', he', hid, hp⟩ := hpid r hr
      have : e' = e := List.inj_on_of_nodup_map hjn he' he (hp.symm.trans hre)
      rw [← this, hid]
      exact List.mem_map_of_mem hr
    · intro hm
      obtain ⟨r, hr, hre⟩ := List.mem_map.mp hm
      obtain ⟨e', he', hid, hp⟩ := hpid r hr
      have : e' = e := hv.id_inj he' he (hid.trans hre)
      rw [← this, ← hp]
      exact List.mem_map_of_mem hr
  refine h.reap (reaped.map Prod.snd) ?_ hs.children
  rw [List.filter_append, World.jobPids, hs.jobs, World.jobPids, List.filter_map]
  congr 1
  · congr 1
    refine List.filter_congr fun e he => ?_
    simp only [Function.comp_apply, hiff e he, decide_not]
  · refine (List.filter_eq_self.mpr fun x hx => ?_).symm
    simp only [decide_not, Bool.not_eq_true', decide_eq_false_iff_not]
    intro hm
    obtain ⟨r, hr, hre⟩ := List.mem_map.mp hm
    obtain ⟨e, he, -, hp⟩ := hpid r hr
    exact hdisj e.pid (List.mem_map_of_mem he) x hx (hp.symm.trans hre)

theorem changeChild (h : Tracked hidden w) {pid : Int} {status : Status}
    (hw : w.changeChild pid status = some w') : Tracked hidden w' := by
  rw [World.changeChild] at hw
  split at hw
  · cases hw
    have hpid : ∀ ch : Child, (if ch.pid = pid then { ch with status := status } else ch).pid =
        ch.pid ∧ (if ch.pid = pid then { ch with status := status } else ch).cmd = ch.cmd := by
      intro ch
      split <;> exact ⟨rfl, rfl⟩
    refine ⟨?_, ?_, ?_⟩
    · refine h.perm.trans (.of_eq ?_)
      simp only [World.ownPids, List.filter_map, List.map_map]
      have hf : ((fun ch : Child => ch.cmd.isSome) ∘ fun ch : Child =>
          if ch.pid = pid then { ch with status := status } else ch) =
          fun ch => ch.cmd.isSome := by
        funext ch
        simp only [Function.comp_apply, (hpid ch).2]
      rw [hf]
      exact List.map_congr_left fun ch _ => (hpid ch).1.symm
    · rw [List.map_map]
      exact (List.map_congr_left (g := Child.pid) fun ch _ => (hpid ch).1) ▸ h.nodup
    · intro ch hch
      obtain ⟨ch', hch', rfl⟩ := List.mem_map.mp hch
      rw [(hpid ch').1]
      exact h.pos ch' hch'
  · cases hw

/-- The hidden job is put at the end of the list, or back into it. -/
theorem relist {p : Int} (h : Tracked [p] w) (hjobs : w'.jobPids.Perm (p :: w.jobPids))
    (hch : w'.children = w.children) : Tracked [] w' := by
  refine ⟨?_, hch ▸ h.nodup, hch ▸ h.pos⟩
  rw [List.append_nil, World.ownPids, hch]
  exact hjobs.trans ((List.perm_append_singleton p w.jobPids).symm.trans h.perm)

/-- `fg` takes a job out. -/
theorem take (h : Tracked [] w) (hv : w.shell.jobs.Valid) {e : JobEntry}
    (he : e ∈ w.shell.jobs.jobsList) :
    Tracked [e.pid] (w.onJobs fun j => j.removeJobById e.jobId) := by
  have hone : (w.shell.jobs.jobsList.filter fun e' => decide (e'.jobId = e.jobId)) = [e] := by
    refine List.perm_singleton.mp ((List.perm_ext_iff_of_nodup ?_ (List.nodup_singleton e)).mpr ?_)
    · exact (hv.nodup.of_map _).filter _
    · intro e'
      simp only [List.mem_filter, decide_eq_true_eq, List.mem_singleton]
      constructor
      · exact fun ⟨hm, hid⟩ => hv.id_inj hm he hid
      · rintro rfl
        exact ⟨he, rfl⟩
  have hperm := (List.filter_append_perm (fun e' : JobEntry => decide (e'.jobId = e.jobId))
    w.shell.jobs.jobsList).map JobEntry.pid
  rw [hone] at hperm
  refine ⟨?_, h.nodup, h.pos⟩
  have hrem : (w.onJobs fun j => j.removeJobById e.jobId).jobPids =
      (w.shell.jobs.jobsList.filter fun e' => !decide (e'.jobId = e.jobId)).map JobEntry.pid := by
    rw [World.jobPids, World.onJobs_jobs, hv.removeJobById]
  rw [hrem]
  have hp := h.perm
  rw [List.append_nil] at hp
  exact (List.perm_append_singleton ..).trans (hperm.trans hp)

end Tracked

/-! ## Job ids -/

/-- The same command, under the same id and pid. -/
def SameJob (e e' : JobEntry) : Prop := e'.cmd = e.cmd ∧ e'.jobId = e.jobId ∧ e'.pid = e.pid

/-- Entries of the first `n` commands are where `old`, a jobs list when there
were that many, has them. -/
structure Kept (old : List JobEntry) (n : Nat) (w : World) : Prop where
  ids : ∀ e ∈ w.shell.jobs.jobsList, e.cmd < n → ∃ e' ∈ old, SameJob e e'
  le : n ≤ w.shell.commands.length

namespace Kept

variable {old : List JobEntry} {n : Nat} {w w' : World}

theorem mono (h : Kept old n w) (hlen : w.shell.commands.length ≤ w'.shell.commands.length)
    (hjobs : ∀ e ∈ w'.shell.jobs.jobsList, ∃ e' ∈ w.shell.jobs.jobsList, SameJob e e') :
    Kept old n w' := by
  refine ⟨fun e he hlt => ?_, h.le.trans hlen⟩
  obtain ⟨e', he', hcmd, hid, hpid⟩ := hjobs e he
  obtain ⟨e₀, he₀, hcmd₀, hid₀, hpid₀⟩ := h.ids e' he' (hcmd ▸ hlt)
  exact ⟨e₀, he₀, hcmd₀.trans hcmd, hid₀.trans hid, hpid₀.trans hpid⟩

theorem of_subset (h : Kept old n w)
    (hlen : w'.shell.commands.length = w.shell.commands.length)
    (hjobs : ∀ e ∈ w'.shell.jobs.jobsList, e ∈ w.shell.jobs.jobsList) : Kept old n w' :=
  h.mono hlen.ge fun e he => ⟨e, hjobs e he, rfl, rfl, rfl⟩

/-- One more entry, of a new command or under its old id. -/
theorem insert (h : Kept old n w) {e : JobEntry}
    (he : e.cmd < n → ∃ e' ∈ old, SameJob e e')
    (hlen : w'.shell.commands.length = w.shell.commands.length)
    (hjobs : ∀ e' ∈ w'.shell.jobs.jobsList, e' = e ∨ e' ∈ w.shell.jobs.jobsList) :
    Kept old n w' := by
  refine ⟨fun e' he' hlt => ?_, hlen ▸ h.le⟩
  rcases hjobs e' he' with rfl | hmem
  · exact he hlt
  · exact h.ids e' hmem hlt

theorem setIsStopped (h : Kept old n w) (jobId : Int) (b : Bool) :
    Kept old n (w.onJobs fun j => j.setIsStopped jobId b) := by
  refine h.mono le_rfl fun e he => ?_
  obtain ⟨e', he', rfl⟩ := List.mem_map.mp he
  refine ⟨e', he', ?_⟩
  split <;> exact ⟨rfl, rfl, rfl⟩

end Kept

/-! ## The outline -/

section

variable (old : List JobEntry) (n : Nat)

/-- What is added to the base assertions. -/
def trackedAt : Point → World → Prop
  | .rest, w => w.shell.run = true → Tracked [] w ∧ Kept old n w
  | .idle, w => Tracked [] w ∧ Kept old n w
  | .created _ cmd, w => (Tracked [] w ∧ Kept old n w) ∧ n ≤ cmd
  | .current _ cmd, w => (Tracked [] w ∧ Kept old n w) ∧ n ≤ cmd
  | .forked _ cmd pid, w => (Tracked [pid] w ∧ Kept old n w) ∧ n ≤ cmd
  | .started _ cmd pid, w => (Tracked [pid] w ∧ Kept old n w) ∧ n ≤ cmd
  | .stopped cmd pid, w => (Tracked [pid] w ∧ Kept old n w) ∧ n ≤ cmd
  | .chosen _, w => Tracked [] w ∧ Kept old n w
  | .taken e, w => (Tracked [e.pid] w ∧ Kept old n w) ∧
      (e.cmd < n → ∃ e' ∈ old, SameJob e e')
  | .raised e, w => (Tracked [e.pid] w ∧ Kept old n w) ∧
      (e.cmd < n → ∃ e' ∈ old, SameJob e e')
  | .resumed e, w => (Tracked [e.pid] w ∧ Kept old n w) ∧
      (e.cmd < n → ∃ e' ∈ old, SameJob e e')
  | .stoppedAgain e, w => (Tracked [e.pid] w ∧ Kept old n w) ∧
      (e.cmd < n → ∃ e' ∈ old, SameJob e e')
  | .piping pids, w => (Tracked [] w ∧ Kept old n w) ∧ pids.Nodup ∧
      ∀ p ∈ pids, ∃ ch ∈ w.children, ch.pid = p ∧ ch.cmd = none
  | .quitting _, _ => True
  | .finished, w => w.shell.run = true → Tracked [] w ∧ Kept old n w
  | .lowering _, w => w.shell.run = true → Tracked [] w ∧ Kept old n w

variable {old n} {w w' : World} {pt : Point}

/-- The assertions speak of the table, the children, the number of commands. -/
theorem trackedAt_congr (h : trackedAt old n pt w) (hjobs : w'.shell.jobs = w.shell.jobs)
    (hch : w'.children = w.children)
    (hlen : w'.shell.commands.length = w.shell.commands.length)
    (hrun : w'.shell.run = w.shell.run) : trackedAt old n pt w' := by
  have hpids : w'.jobPids = w.jobPids := by rw [World.jobPids, World.jobPids, hjobs]
  have hb : ∀ {hidden}, Tracked hidden w ∧ Kept old n w → Tracked hidden w' ∧ Kept old n w' :=
    fun hb => ⟨hb.1.congr hpids hch, hb.2.of_subset hlen fun e he => hjobs ▸ he⟩
  cases pt with
  | rest | finished | lowering => exact fun hr => hb (h (hrun ▸ hr))
  | idle | chosen => exact hb h
  | created | current | forked | started | stopped => exact ⟨hb h.1, h.2⟩
  | taken | raised | resumed | stoppedAgain => exact ⟨hb h.1, h.2⟩
  | piping => exact ⟨hb h.1, h.2.1, by rw [hch]; exact h.2.2⟩
  | quitting => trivial

theorem trackedAt_swept {reaped : List (Int × Int)} (hpt : pt.sweeps = true)
    (hl : linkedAt pt w) (h : trackedAt old n pt w)
    (hw : w.removeFinishedJobs reaped = some w') : trackedAt old n pt w' := by
  have hb : ∀ {hidden}, w.shell.jobs.Valid → Tracked hidden w ∧ Kept old n w →
      Tracked hidden w' ∧ Kept old n w' := by
    intro hidden hv hb
    have hs := swept hv hw
    refine ⟨hb.1.swept hv hs, hb.2.of_subset hs.length fun e he => ?_⟩
    rw [hs.jobs] at he
    exact (List.mem_filter.mp he).1
  cases pt with
  | rest =>
      intro hr
      rw [run_removeFinishedJobs hw] at hr
      exact hb (hl hr).valid (h hr)
  | idle => exact hb hl.valid h
  | started | stopped => exact ⟨hb hl.1.valid h.1, h.2⟩
  | resumed | stoppedAgain => exact ⟨hb hl.1.linked.valid h.1, h.2⟩
  | piping pids =>
      refine ⟨hb hl.valid h.1, h.2.1, fun p hp => ?_⟩
      -- the children of the pipe are not among those of the jobs
      have hs := swept hl.valid hw
      obtain ⟨ch, hch, rfl, hcmd⟩ := h.2.2 p hp
      refine ⟨ch, ?_, rfl, hcmd⟩
      rw [hs.children]
      refine List.mem_filter.mpr ⟨hch, ?_⟩
      simp only [decide_not, Bool.not_eq_true', decide_eq_false_iff_not]
      intro hm
      obtain ⟨r, hr, hre⟩ := List.mem_map.mp hm
      obtain ⟨-, e, he, -, ha⟩ := hs.can.2.2 r hr
      have hpid : e.pid ∈ w.jobPids ++ [] := List.mem_append_left _ (List.mem_map_of_mem he)
      have hq := h.1.1.addresses hpid ha
      obtain ⟨ch', hch', hpid'⟩ := List.mem_map.mp (h.1.1.perm.subset hpid)
      obtain ⟨hch', hsome⟩ := List.mem_filter.mp hch'
      have : ch' = ch := List.inj_on_of_nodup_map h.1.1.nodup hch' hch
        (hpid'.trans (hq.symm.trans hre))
      rw [this, hcmd] at hsome
      cases hsome
  | _ => cases hpt

theorem trackedAt_child {pid : Int} {status : Status}
    (hw : w.changeChild pid status = some w') (h : trackedAt old n pt w) :
    trackedAt old n pt w' := by
  have hshell := changeChild_shell hw
  have hb : ∀ {hidden}, Tracked hidden w ∧ Kept old n w → Tracked hidden w' ∧ Kept old n w' :=
    fun hb => ⟨hb.1.changeChild hw, hb.2.of_subset (by rw [hshell]) fun e he => hshell ▸ he⟩
  cases pt with
  | rest | finished | lowering => exact fun hr => hb (h (hshell ▸ hr))
  | idle | chosen => exact hb h
  | created | current | forked | started | stopped => exact ⟨hb h.1, h.2⟩
  | taken | raised | resumed | stoppedAgain => exact ⟨hb h.1, h.2⟩
  | piping pids =>
      refine ⟨hb h.1, h.2.1, fun p hp => ?_⟩
      obtain ⟨ch, hch, rfl, hcmd⟩ := h.2.2 p hp
      rw [World.changeChild] at hw
      split at hw
      · cases hw
        refine ⟨_, List.mem_map_of_mem hch, ?_⟩
        split <;> exact ⟨rfl, hcmd⟩
      · cases hw
  | quitting => trivial

/-- `addJob` for a new command. -/
theorem listed {cmd : Nat} {pid : Int} (h : Tracked [pid] w ∧ Kept old n w) (hn : n ≤ cmd)
    (b : Bool) : Tracked [] (w.onJobs fun j => j.addJob cmd pid b) ∧
      Kept old n (w.onJobs fun j => j.addJob cmd pid b) := by
  refine ⟨h.1.relist ?_ rfl,
    h.2.insert (e := ⟨w.shell.jobs.maxJobId + 1, pid, cmd, b⟩) ?_ rfl fun e he => ?_⟩
  · simp only [World.jobPids, World.onJobs_jobs, JobsList.addJob, List.map_append,
      List.map_cons, List.map_nil]
    exact List.perm_append_singleton ..
  · exact fun hlt => absurd hlt (Nat.not_lt.mpr hn)
  · rcases List.mem_append.mp he with he | he
    · exact .inr he
    · exact .inl (List.mem_singleton.mp he)

/-- A wait for a child that is not listed: it is reaped, or reported and kept. -/
theorem waited {pid : Int} {untraced : Bool} {r : Reply} {how : Waited}
    (h : Tracked [pid] w ∧ Kept old n w) (hok : r ≠ .failed)
    (hp : w.waitpid pid untraced r = some (how, w')) :
    how = .ended ∧ Tracked [] w' ∧ Kept old n w' ∨
      how = .stopped ∧ Tracked [pid] w' ∧ Kept old n w' := by
  obtain ⟨-, hs, -, hcases⟩ := waitpid_cases hp
  have hjobs : w'.jobPids = w.jobPids := by
    rw [World.jobPids, hs]
    rfl
  have hkept : Kept old n w' := h.2.of_subset (by rw [hs]) fun e he => hs ▸ he
  obtain ⟨rfl, -⟩ | ⟨q, -, rfl, ha, -, hch⟩ | ⟨q, -, rfl, -, -, hch⟩ := hcases
  · exact absurd rfl hok
  · exact .inl ⟨rfl, h.1.reapHidden ha hjobs hch, hkept⟩
  · exact .inr ⟨rfl, h.1.congr hjobs hch, hkept⟩

theorem trackedAt_moves {op : Op} {next : Resp op → Point} {r : Reply} {a : Resp op}
    (h : Moves pt op next) (hl : linkedAt pt w) (hw : trackedAt old n pt w)
    (hok : Succeeds op w r) (hp : perform op w r = some (a, w')) :
    trackedAt old n (next a) w' := by
  cases h with
  | quiet _ hq =>
      have hs := perform_quiet hq hp
      exact trackedAt_congr hw hs.jobs hs.children (congrArg _ hs.commands) hs.run
  | forkFailed =>
      have hs := perform_quiet (.error _) hp
      exact trackedAt_congr hw hs.jobs hs.children (congrArg _ hs.commands) hs.run
  | new kind cmdLine =>
      cases hp
      refine ⟨⟨hw.1.congr rfl rfl, hw.2.mono ?_ fun e he => ⟨e, he, rfl, rfl, rfl⟩⟩, hw.2.le⟩
      change _ ≤ (w.shell.commands ++ [_]).length
      simp
  | background cmd =>
      cases hp
      exact ⟨⟨hw.1.1.congr rfl rfl, hw.1.2.of_subset (World.onCommand_length ..) fun _ he => he⟩,
        hw.2⟩
  | setCommand b cmd =>
      cases hp
      exact ⟨⟨hw.1.1.congr rfl rfl, hw.1.2.of_subset rfl fun _ he => he⟩, hw.2⟩
  | fork b cmd =>
      rcases fork_cases hp with ⟨rfl, -⟩ | ⟨-, hpos, hnew, rfl⟩
      · exact absurd rfl hok
      · exact ⟨⟨hw.1.1.fork hpos hnew, hw.1.2.of_subset rfl fun _ he => he⟩, hw.2⟩
  | forkPipe pids =>
      rcases fork_cases hp with ⟨rfl, -⟩ | ⟨-, hpos, hnew, rfl⟩
      · exact absurd rfl hok
      obtain ⟨hb, hnodup, hpids⟩ := hw
      refine ⟨⟨hb.1.forkPipe hpos hnew, hb.2.of_subset rfl fun _ he => he⟩, ?_, ?_⟩
      · refine List.nodup_append.mpr ⟨hnodup, List.nodup_singleton _, ?_⟩
        intro p hp q hq
        obtain ⟨ch, hch, rfl, -⟩ := hpids p hp
        rw [List.mem_singleton.mp hq]
        exact hnew ch hch
      · intro p hp
        rcases List.mem_append.mp hp with hp | hp
        · obtain ⟨ch, hch, hcase⟩ := hpids p hp
          exact ⟨ch, List.mem_append_left _ hch, hcase⟩
        · rw [List.mem_singleton.mp hp]
          exact ⟨⟨a, none, .running⟩, List.mem_append_right _ (by simp), rfl, rfl⟩
  | setPid b cmd pid =>
      cases hp
      exact ⟨⟨hw.1.1.congr rfl rfl, hw.1.2.of_subset (World.onCommand_length ..) fun _ he => he⟩,
        hw.2⟩
  | addTime b cmd pid duration =>
      cases hp
      exact ⟨⟨hw.1.1.congr rfl rfl, hw.1.2.of_subset rfl fun _ he => he⟩, hw.2⟩
  | sweep hpt =>
      cases r with
      | finished reaped =>
          obtain ⟨w₁, hw₁, he⟩ := Option.map_eq_some_iff.mp hp
          cases he
          exact trackedAt_swept (Point.sweeps_of_removes hpt) hl hw hw₁
      | _ => cases hp
  | list cmd pid | listStopped cmd pid =>
      cases hp
      exact fun _ => listed hw.1 hw.2 _
  | wait cmd pid =>
      obtain ⟨rfl, hended⟩ | ⟨rfl, hstopped⟩ := waited hw.1 hok hp
      · exact fun _ => hended
      · exact ⟨hstopped, hw.2⟩
  | take e =>
      cases hp
      refine ⟨⟨hw.1.take hl.1.valid hl.2, hw.2.of_subset rfl fun e' he' => ?_⟩,
        hw.2.ids e hl.2⟩
      rw [World.onJobs_jobs, hl.1.valid.removeJobById] at he'
      exact (List.mem_filter.mp he').1
  | raise e =>
      cases hp
      exact ⟨⟨hw.1.1.congr rfl rfl, hw.1.2.of_subset (World.onCommand_length ..) fun _ he => he⟩,
        hw.2⟩
  | front e =>
      cases hp
      exact ⟨⟨hw.1.1.congr rfl rfl, hw.1.2.of_subset rfl fun _ he => he⟩, hw.2⟩
  | cont e =>
      obtain ⟨rfl, ⟨rfl, -⟩ | ⟨-, rfl⟩⟩ := kill_eq hp
      · exact hw
      · exact absurd rfl hok
  | waitAgain e =>
      obtain ⟨rfl, hended⟩ | ⟨rfl, hstopped⟩ := waited hw.1 hok hp
      · exact fun _ => hended
      · exact ⟨hstopped, hw.2⟩
  | relist e =>
      cases hp
      have hperm := (hl.1.linked.valid.addJobWithId e.cmd e.pid true hl.1.pos hl.1.out).2
      refine fun _ => ⟨hw.1.1.relist (hperm.map JobEntry.pid) rfl,
        hw.1.2.insert (e := ⟨e.jobId, e.pid, e.cmd, true⟩) hw.2 rfl ?_⟩
      exact fun e' he' => List.mem_cons.mp (hperm.subset he')
  | signal e signum =>
      obtain ⟨rfl, -⟩ := kill_eq hp
      exact hw
  | flag e b =>
      cases hp
      refine ⟨hw.1.congr ?_ rfl, hw.2.setIsStopped _ _⟩
      simp only [World.jobPids, World.onJobs_jobs, JobsList.setIsStopped, List.map_map]
      refine List.map_congr_left fun e' _ => ?_
      simp only [Function.comp_apply]
      split <;> rfl
  | waitPipe p pids =>
      obtain ⟨hb, hnodup, hpids⟩ := hw
      obtain ⟨hnot, hrest⟩ := List.nodup_cons.mp hnodup
      obtain ⟨-, hs, -, ⟨rfl, -⟩ | ⟨q, -, rfl, ha, -, hch⟩ | ⟨q, -, rfl, -, -, hch⟩⟩ :=
        waitpid_cases hp
      · exact absurd rfl hok
      · obtain ⟨htracked, rfl⟩ := hb.1.reapPipe (hpids p (by simp)) ha
          (by rw [World.jobPids, hs]; rfl) hch
        refine ⟨⟨htracked, hb.2.of_subset (by rw [hs]) fun e he => hs ▸ he⟩, hrest, ?_⟩
        intro x hx
        obtain ⟨ch, hmem, rfl, hcmd⟩ := hpids x (by simp [hx])
        refine ⟨ch, ?_, rfl, hcmd⟩
        rw [hch]
        refine (World.mem_reap ..).mpr ⟨hmem, ?_⟩
        rw [List.mem_singleton]
        rintro rfl
        exact hnot hx
      · refine ⟨⟨hb.1.congr (by rw [World.jobPids, hs]; rfl) hch,
          hb.2.of_subset (by rw [hs]) fun e he => hs ▸ he⟩, hrest, ?_⟩
        rw [hch]
        exact fun x hx => hpids x (by simp [hx])
  | lower cmd =>
      cases hp
      exact fun hr => ⟨(hw hr).1.congr rfl rfl,
        (hw hr).2.of_subset (World.onCommand_length ..) fun _ he => he⟩
  | killEach | delete | clear => trivial
  | leave l =>
      cases hp
      exact fun hr => by cases hr

theorem trackedAt_becomes {pt' : Point} (h : Becomes w pt pt') (hw : trackedAt old n pt w) :
    trackedAt old n pt' w := by
  cases h with
  | begin hr => exact hw hr
  | drop b cmd => exact hw.1
  | choose e he => exact hw
  | keep e => exact hw
  | pipe => exact ⟨hw, List.nodup_nil, by simp⟩
  | piped => exact fun _ => hw.1
  | quit => trivial
  | finish => exact fun _ => hw
  | lowering cmd hc => exact hw
  | none => exact hw

theorem trackedAt_stable {op : Option Op} {e : Interrupt}
    (hpt : waiting op = true → pt.sweeps = true) (hl : linkedAt pt w) (hw : trackedAt old n pt w)
    (hi : interrupt op w e = some w') : trackedAt old n pt w' := by
  cases interrupt_cases hi with
  | child h => exact trackedAt_child h hw
  | same h => exact trackedAt_congr hw h.jobs h.children (congrArg _ h.commands) h.run
  | lower cmd hc => exact trackedAt_congr hw rfl rfl (World.onCommand_length ..) rfl
  | alarm hop hw₁ times htimes h =>
      exact trackedAt_congr (trackedAt_swept (hpt hop) hl hw hw₁) h.jobs h.children
        (congrArg _ h.commands) h.run

variable (old n) in
def trackedOutline : Outline Succeeds anyInterrupt fun _ _ => True where
  inv pt w := linkedAt pt w ∧ trackedAt old n pt w
  moves h hw := ⟨trivial, fun _ _ _ hok hp =>
    ⟨linkedAt_moves h hw.1 hp, trackedAt_moves h hw.1 hw.2 hok hp⟩⟩
  becomes h hw := ⟨linkedAt_becomes h hw.1, trackedAt_becomes h hw.2⟩
  stable hpt hw _ hi := ⟨linkedAt_stable hpt hw.1 hi, trackedAt_stable hpt hw.1 hw.2 hi⟩
  front hw := hw.1.2

end

/-! ## Every run -/

/-- The events of the run in which `fork`, `kill` and `waitpid` succeed. -/
def SucceedsAlong (c : Config) (es : List Event) : Prop :=
  Along smash.step (Loop.Meets Succeeds anyInterrupt) c es

instance (c : Config) (es : List Event) : Decidable (SucceedsAlong c es) := by
  unfold SucceedsAlong
  infer_instance

/-- Between two turns, before `quit`. -/
def AtPrompt (c : Config) : Prop := c.prog.head = none ∧ c.state.shell.run = true

theorem start_linked (now : Int) (cwd : Text) : linkedAt .rest (.start now cwd) :=
  fun _ => ⟨JobsList.empty_valid, by simp [World.start, JobsList.empty],
    by simp [World.start, JobsList.empty], by simp [World.start, JobsList.empty]⟩

theorem start_tracked (now : Int) (cwd : Text) : trackedAt [] 0 .rest (.start now cwd) :=
  fun _ => ⟨⟨by simp [World.jobPids, World.ownPids, World.start, JobsList.empty],
    by simp [World.start], by simp [World.start]⟩, by simp [World.start, JobsList.empty],
    Nat.zero_le _⟩

/-- What holds at the prompts of a run carries on from any of them. -/
theorem tracked_from {c c' : Config} {es : List Event} {old : List JobEntry} {n : Nat}
    (hc : c.prog.head = none) (hl : linkedAt .rest c.state) (ht : trackedAt old n .rest c.state)
    (hok : SucceedsAlong c es) (hrun : runFrom smash.step c es = .ok c') (hc' : AtPrompt c') :
    Linked [] c'.state ∧ Tracked [] c'.state ∧ Kept old n c'.state := by
  have hsound : Loop.Sound (rules Succeeds anyInterrupt fun _ _ => True)
      ((trackedOutline old n).inv .rest) c := by
    obtain ⟨s, p⟩ := c
    cases p with
    | ret a => exact ⟨hl, ht⟩
    | call op next => cases hc
  obtain ⟨hl', ht'⟩ := ((trackedOutline old n).sound hsound hok hrun).idle hc'.1
  exact ⟨hl' hc'.2, ht' hc'.2⟩

/-- **No job is lost or duplicated, and jobs keep their ids.** At every
prompt the listed pids are those of the children `executeCommand` forked that
were not reaped, each once; and at any later prompt a job that is still listed
(the same command) is listed under the same id. -/
theorem no_job_lost (now : Int) (cwd : Text) (es es' : List Event) (c c' : Config)
    (hrun : smash.run (.start now cwd) es = .ok c) (hrun' : runFrom smash.step c es' = .ok c')
    (hok : SucceedsAlong (Loop.init (.start now cwd)) es) (hok' : SucceedsAlong c es')
    (hc : AtPrompt c) (hc' : AtPrompt c') :
    c.state.jobPids.Perm c.state.ownPids ∧ c.state.jobPids.Nodup ∧
    ∀ e ∈ c.state.shell.jobs.jobsList, ∀ e' ∈ c'.state.shell.jobs.jobsList,
      e'.cmd = e.cmd → e'.jobId = e.jobId ∧ e'.pid = e.pid := by
  obtain ⟨hl, ht, -⟩ := tracked_from rfl (start_linked now cwd) (start_tracked now cwd) hok hrun hc
  refine ⟨by simpa using ht.perm, by simpa using ht.own_nodup, ?_⟩
  intro e he e' he' hcmd
  have hbound := hl.bound e.cmd (by simpa using ⟨e, he, rfl⟩)
  have hnodup : (c.state.shell.jobs.jobsList.map JobEntry.cmd).Nodup := by simpa using hl.nodup
  -- from the first prompt on, with the table it has
  have hold : trackedAt c.state.shell.jobs.jobsList c.state.shell.commands.length .rest c.state :=
    fun _ => ⟨ht, fun e he _ => ⟨e, he, rfl, rfl, rfl⟩, le_rfl⟩
  obtain ⟨-, -, hkept⟩ := tracked_from hc.1 (fun _ => hl) hold hok' hrun' hc'
  obtain ⟨e₀, he₀, hcmd₀, hid, hpid⟩ := hkept.ids e' he' (hcmd ▸ hbound)
  have : e₀ = e := List.inj_on_of_nodup_map hnodup he₀ he (hcmd₀.trans hcmd)
  exact this ▸ ⟨hid.symm, hpid.symm⟩

/-- `a &`, which becomes job 1. -/
def startJob : List Event := .input "a &".toList ::
  [.finished [], .done, .done, .done, .done, .pid 100, .done, .finished [], .done, .done,
    .done].map .statement

/-- `fg`, and the job is stopped again. -/
def fgStopped : List Event := .input "fg".toList ::
  ([.finished [], .done, .done, .done, .done, .done, .done] : List Reply).map .statement ++
  [.interrupt (.child 100 .stopped)] ++
  ([.stopped 100, .finished [], .done, .done, .done, .done] : List Reply).map .statement

set_option maxRecDepth 100000 in
theorem no_job_lost_fg : ∃ c c' : Config, smash.run (.start 0 []) startJob = .ok c ∧
    runFrom smash.step c fgStopped = .ok c' ∧
    c'.state.shell.jobs.jobsList = [⟨1, 100, 0, true⟩] ∧
    c.state.jobPids.Perm c.state.ownPids ∧ c.state.jobPids.Nodup ∧
    ∀ e ∈ c.state.shell.jobs.jobsList, ∀ e' ∈ c'.state.shell.jobs.jobsList,
      e'.cmd = e.cmd → e'.jobId = e.jobId ∧ e'.pid = e.pid := by
  have hrun : smash.run (.start 0 []) startJob =
      .ok (Loop.init (stateAfter (.start 0 []) startJob)) :=
    Loop.eq_of_view (by decide +kernel)
  have hrun' : runFrom smash.step (Loop.init (stateAfter (.start 0 []) startJob)) fgStopped =
      .ok (Loop.init (stateAfter (stateAfter (.start 0 []) startJob) fgStopped)) :=
    Loop.eq_of_view (by decide +kernel)
  have hok : SucceedsAlong (Loop.init (.start 0 [])) startJob := by decide +kernel
  have hok' : SucceedsAlong (Loop.init (stateAfter (.start 0 []) startJob)) fgStopped := by
    decide +kernel
  have hc : AtPrompt (Loop.init (stateAfter (.start 0 []) startJob)) := ⟨rfl, by decide +kernel⟩
  have hc' : AtPrompt (Loop.init (stateAfter (stateAfter (.start 0 []) startJob) fgStopped)) :=
    ⟨rfl, by decide +kernel⟩
  have hlost := no_job_lost 0 [] startJob fgStopped _ _ hrun hrun' hok hok' hc hc'
  exact ⟨_, _, hrun, hrun', by decide +kernel, hlost⟩

end OsAllHw.Shell
