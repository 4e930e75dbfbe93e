import OsAllHw.Lib.Bounded
import OsAllHw.Server.Connections

/-!
# Progress of the server

How much the threads do for each connection, and where they come to rest. Each
step of a thread uses up some of the work that is left, a connection brings
some, and so does a wake-up that nobody signalled; so the server never runs on
its own for long. Where it stops, nothing is left to do.
-/

namespace OsAllHw.Server

open Lib

/-- A wake-up that nobody signalled. -/
def Event.isSpurious {n : Nat} : Event n → Bool
  | .wakeMain => true
  | .wakeWorker _ => true
  | .accept _ | .arrive _ | .resume _ | .take _ | .close _ | .finish _ => false

def Event.gain {n : Nat} (e : Event n) : Nat := if e.isSpurious then 2 else 0

/-! ## The work that is left -/

/-- What main has to do until it accepts; a signal of its wakes `n` workers at
most. -/
def MainState.work (n : Nat) : MainState → Nat
  | .accepting => 0
  | .arrived _ => n + 6
  | .blocked _ => n + 5
  | .woken _ => n + 6

/-- What a worker has to do until it sleeps. -/
def WorkerState.work {ρ : Type} : WorkerState ρ → Nat
  | .asleep => 0
  | .ready => 1
  | .woken => 1
  | .finishing => 3
  | .serving _ => 4

theorem WorkerState.work_idle {ρ : Type} {w : WorkerState ρ} (h : w = .ready ∨ w = .woken) :
    w.work = 1 := by
  obtain rfl | rfl := h
  · rfl
  · rfl

section Work

variable {n : Nat} {cfg : Config} {lost : Prop} {a a' : Spec n} {s s' : State n}
  {L L' : List Nat}

def Spec.work (a : Spec n) : Nat :=
  5 * a.waiting.length + a.main.work n + ∑ i, (a.workers i).work

def State.work (s : State n) : Nat :=
  5 * s.queue.waitingQueueSize.toNat + s.main.work n + ∑ i, (s.workers i).work

theorem Represents.work (h : Represents s L a) : s.work = a.work := by
  have hworkers : ∑ i, (a.workers i).work = ∑ i, (s.workers i).work :=
    h.sum_eq WorkerState.work _ fun w => by cases w <;> rfl
  rw [State.work, Spec.work, h.size, Int.toNat_natCast, h.main, hworkers]

theorem MainState.work_signalled (full : Prop) [Decidable full] (m : MainState) :
    (m.signalled full).work n ≤ m.work n + 1 := by
  unfold MainState.signalled
  split
  · omega
  · cases m <;> simp [MainState.work]

theorem work_wakeAll {w : Fin n → WorkerState Int} {W : Finset (Fin n)} (hW : Wakes w W) :
    ∑ i, (wakeAll w W i).work ≤ ∑ i, (w i).work + n := by
  have hle : ∀ i, (wakeAll w W i).work ≤ (w i).work + 1 := by
    intro i
    unfold wakeAll
    split
    · rename_i hi
      rw [hW.asleep i hi]
      exact le_rfl
    · omega
  have hsum := Finset.sum_le_sum fun i (_ : i ∈ Finset.univ) => hle i
  rw [Finset.sum_add_distrib, Finset.sum_const, Finset.card_univ, Fintype.card_fin,
    smul_eq_mul, Nat.mul_one] at hsum
  exact hsum

/-- What a wake-up does that nobody signalled. -/
inductive Nudged (a : Spec n) : Spec n → Prop where
  | main (c : Int) (hm : a.main = .blocked c) : Nudged a { a with main := .woken c }
  | worker (i : Fin n) (hw : a.workers i = .asleep) :
      Nudged a { a with workers := Function.update a.workers i .woken }

/-- **One step** uses up some work, but for `n + 7` for a new connection. -/
theorem Step.work (h : Step cfg lost a a') :
    Nudged a a' ∧ a'.work = a.work + 1 ∧ a'.accepted = a.accepted ∨
      a'.work + 1 + (n + 7) * a.accepted.length ≤ a.work + (n + 7) * a'.accepted.length := by
  unfold Spec.work
  cases h with
  | accept c hm hc =>
      refine .inr ?_
      rw [hm, List.length_append, List.length_singleton, Nat.mul_succ]
      simp only [MainState.work]
      omega
  | sleep c hm hfull =>
      refine .inr ?_
      obtain ⟨hm, -⟩ | hm := hm
      all_goals
        rw [hm]
        simp only [MainState.work]
        omega
  | reject c hm hp hfull =>
      refine .inr ?_
      rw [hm]
      simp only [MainState.work]
      omega
  | letIn c W hm hroom hW =>
      have hwake := work_wakeAll hW
      refine .inr ?_
      obtain hm | hm := hm
      all_goals
        rw [hm]
        simp only [MainState.work, List.length_append, List.length_singleton]
        omega
  | admitHead c v rest W hl hm hp hfull hq hW =>
      have hwake := work_wakeAll hW
      refine .inr ?_
      rw [hm, hq]
      rw [List.length_append, List.length_singleton, List.length_cons]
      simp only [MainState.work]
      omega
  | admitRandom c victims rest W hm hp hfull hq hlen hsub hperm hW =>
      have hwake := work_wakeAll hW
      have hle := hsub.length_le
      refine .inr ?_
      rw [hm]
      simp only [MainState.work, List.length_append, List.length_singleton]
      omega
  | wakeMain c hm =>
      refine .inl ⟨.main c hm, ?_, rfl⟩
      rw [hm]
      simp only [MainState.work]
      omega
  | wakeWorker i hw =>
      have hsum := sum_update WorkerState.work a.workers i .woken
      rw [hw] at hsum
      change _ + 0 = _ + 1 at hsum
      refine .inl ⟨.worker i hw, ?_, rfl⟩
      simp only
      omega
  | sleepWorker i hw hq =>
      have hsum := sum_update WorkerState.work a.workers i .asleep
      have hone := WorkerState.work_idle hw
      rw [hone] at hsum
      change _ + 1 = _ + 0 at hsum
      refine .inr ?_
      simp only
      omega
  | take i c rest a' hw hq ha =>
      have hsum := sum_update WorkerState.work a.workers i (.serving c)
      have hone := WorkerState.work_idle hw
      have hsignal := MainState.work_signalled (n := n) (a'.Full cfg) a.main
      obtain ⟨hwaiting, hworkers, haccepted⟩ : a'.waiting = rest ∧
          a'.workers = Function.update a.workers i (.serving c) ∧ a'.accepted = a.accepted := by
        rw [ha]
        exact ⟨rfl, rfl, rfl⟩
      rw [hone] at hsum
      change _ + 1 = _ + 4 at hsum
      refine .inr ?_
      simp only [hq, hwaiting, hworkers, haccepted, List.length_cons]
      omega
  | close i c hw =>
      have hsum := sum_update WorkerState.work a.workers i .finishing
      rw [hw] at hsum
      change _ + 4 = _ + 3 at hsum
      refine .inr ?_
      simp only
      omega
  | finish i a' hw ha =>
      have hsum := sum_update WorkerState.work a.workers i .ready
      have hsignal := MainState.work_signalled (n := n) (a'.Full cfg) a.main
      obtain ⟨hwaiting, hworkers, haccepted⟩ : a'.waiting = a.waiting ∧
          a'.workers = Function.update a.workers i .ready ∧ a'.accepted = a.accepted := by
        rw [ha]
        exact ⟨rfl, rfl, rfl⟩
      rw [hw] at hsum
      change _ + 3 = _ + 1 at hsum
      refine .inr ?_
      simp only [hwaiting, hworkers, haccepted]
      omega

/-! ## Steps of the program -/

theorem letIn_main {c : Int} {choice : Choice n} (h : letIn s c choice = .ok s') :
    s'.main = .accepting := by
  obtain ⟨q, -, h⟩ := bind_eq_ok.mp h
  cases h
  rfl

theorem mainSection_main {c : Int} {choice : Choice n} (h : mainSection cfg s c choice = .ok s') :
    s'.main = .accepting ∨ s'.main = .blocked c := by
  unfold mainSection at h
  split at h
  · split at h
    · cases h
      exact .inr rfl
    · cases h
      exact .inl rfl
    · split at h
      · obtain ⟨s₁, -, h⟩ := bind_eq_ok.mp h
        exact .inl (letIn_main h)
      · cases h
        exact .inl rfl
    · split at h
      · cases h
        exact .inl rfl
      · obtain ⟨s₁, -, h⟩ := bind_eq_ok.mp h
        exact .inl (letIn_main h)
  · exact .inl (letIn_main h)

/-- **A thread that goes on** is somewhere else afterwards, and was not asleep
before. -/
theorem exec_moves {e : Event n} (he : Enabled s e) (hspurious : e.isSpurious = false)
    (hrun : exec cfg s e = .ok s') :
    (s'.main ≠ s.main ∧ ∀ c, s.main ≠ .blocked c) ∨
      ∃ i, (s'.workers i).work ≠ (s.workers i).work ∧ (s.workers i).work ≠ 0 := by
  cases e with
  | accept c =>
      cases hrun
      exact .inl ⟨by simp [he.1], by simp [he.1]⟩
  | arrive choice =>
      obtain ⟨c, hm⟩ := he
      rw [exec, hm] at hrun
      refine .inl ⟨?_, by simp [hm]⟩
      obtain hm' | hm' := mainSection_main hrun
      all_goals simp [hm, hm']
  | resume choice =>
      obtain ⟨c, hm⟩ := he
      rw [exec, hm] at hrun
      refine .inl ⟨?_, by simp [hm]⟩
      simp only [mainResumes] at hrun
      split at hrun
      · cases hrun
        simp [hm]
      · simp [hm, letIn_main hrun]
  | wakeMain => cases hspurious
  | wakeWorker i => cases hspurious
  | take i =>
      have hone : (s.workers i).work = 1 := WorkerState.work_idle he
      refine .inr ⟨i, ?_, by omega⟩
      rw [hone]
      rw [exec, workerTakes] at hrun
      split at hrun
      · cases hrun
        simp [WorkerState.work]
      · obtain ⟨⟨curReq, q⟩, -, hrun⟩ := bind_eq_ok.mp hrun
        obtain ⟨node, -, hrun⟩ := bind_eq_ok.mp hrun
        cases hrun
        rw [signalFull_workers]
        simp [WorkerState.work]
  | close i =>
      obtain ⟨r, hw⟩ := he
      refine .inr ⟨i, ?_, by simp [hw, WorkerState.work]⟩
      simp only [exec, hw] at hrun
      obtain ⟨node, -, hrun⟩ := bind_eq_ok.mp hrun
      obtain ⟨q, -, hrun⟩ := bind_eq_ok.mp hrun
      cases hrun
      simp [hw, WorkerState.work]
  | finish i =>
      have hw : s.workers i = .finishing := he
      refine .inr ⟨i, ?_, by simp [hw, WorkerState.work]⟩
      cases hrun
      rw [workerFinishes, signalFull_workers]
      simp [hw, WorkerState.work]

theorem Represents.work_worker (h : Represents s L a) (i : Fin n) :
    (s.workers i).work = (a.workers i).work := by
  rw [← h.workers i]
  cases s.workers i <;> rfl

/-- A thread that goes on was not nudged. -/
theorem Represents.not_nudged (h : Represents s L a) (h' : Represents s' L' a')
    (hmoves : (s'.main ≠ s.main ∧ ∀ c, s.main ≠ .blocked c) ∨
      ∃ i, (s'.workers i).work ≠ (s.workers i).work ∧ (s.workers i).work ≠ 0) :
    ¬Nudged a a' := by
  intro hnudged
  cases hnudged with
  | main c hm =>
      obtain ⟨-, hblocked⟩ | ⟨i, hne, -⟩ := hmoves
      · exact hblocked c (h.main.trans hm)
      · rw [h.work_worker, h'.work_worker] at hne
        exact hne rfl
  | worker j hw =>
      obtain ⟨hne, -⟩ | ⟨i, hne, hpos⟩ := hmoves
      · exact hne (h'.main.trans h.main.symm)
      · rw [h.work_worker, h'.work_worker] at hne
        rw [h.work_worker] at hpos
        have hij : i ≠ j := by
          rintro rfl
          exact hpos (by rw [hw]; rfl)
        exact hne (congrArg WorkerState.work (Function.update_of_ne hij _ _))

/-- **One event** of the server. -/
theorem Represents.exec_work {e : Event n} (h : Represents s L a) (he : Enabled s e)
    (hrun : exec cfg s e = .ok s') :
    (∃ L' a', Represents s' L' a') ∧ s'.work + 1 + (n + 7) * s.accepted.length ≤
      s.work + (n + 7) * s'.accepted.length + e.gain := by
  obtain ⟨s₁, L', a', hrun₁, hstep, h'⟩ : ∃ s₁ L' a', exec cfg s e = .ok s₁ ∧
      Step cfg (Evicts cfg s e) a a' ∧ Represents s₁ L' a' := exec_refines h he
  obtain rfl := Except.ok.inj (hrun₁.symm.trans hrun)
  refine ⟨⟨L', a', h'⟩, ?_⟩
  rw [h.work, h'.work, h.accepted, h'.accepted]
  obtain ⟨hnudged, hwork, haccepted⟩ | hless := hstep.work
  · cases hspurious : e.isSpurious with
    | true =>
        rw [hwork, haccepted, Event.gain, if_pos hspurious]
        omega
    | false => exact absurd hnudged (h.not_nudged h' (exec_moves he hspurious hrun))
  · exact hless.trans (Nat.le_add_right _ _)

end Work

/-! ## Runs -/

theorem sum_gain {n : Nat} (es : List (Event n)) :
    (es.map Event.gain).sum = 2 * es.countP Event.isSpurious := by
  induction es with
  | nil => rfl
  | cons e es ih =>
      rw [List.map_cons, List.sum_cons, ih, List.countP_cons, Event.gain]
      split <;> omega

/-- **Bounded work.** A run has no more steps than one for each thread, and
`threadNum + 7` for each connection, and two for each wake-up that nobody
signalled. -/
theorem work_bounded (cfg : Config) (malloc : Allocator) (es : List (Event cfg.threadNum))
    (h : Throughout cfg malloc Enabled es) :
    ∃ s, run cfg malloc es = .ok s ∧ es.length ≤ cfg.threadNum +
      (cfg.threadNum + 7) * s.accepted.length + 2 * es.countP Event.isSpurious := by
  obtain ⟨s, hrun, -⟩ := run_refines True malloc (fun s e he => ⟨he, fun _ => trivial⟩)
    (I := fun _ => True) trivial (fun _ _ _ _ => trivial) h
  refine ⟨s, hrun, ?_⟩
  obtain ⟨s₀, hstart, hrep⟩ := start_represents cfg malloc
  rw [Throughout, hstart] at h
  rw [run, hstart, ok_bind] at hrun
  have hlength := runFrom_length (I := fun s => ∃ L a, Represents s L a) State.work
    (fun s => (cfg.threadNum + 7) * s.accepted.length) Event.gain
    (fun _ _ _ hr he hs => by
      obtain ⟨L, a, hr⟩ := hr
      exact hr.exec_work he hs) ⟨[], _, hrep⟩ h hrun
  have hwork : s₀.work = cfg.threadNum := by
    rw [hrep.work]
    simp [Spec.work, Spec.start, MainState.work, WorkerState.work]
  rw [sum_gain, hwork, hrep.accepted] at hlength
  simp only [Spec.start, List.length_nil, Nat.mul_zero] at hlength
  omega

set_option maxRecDepth 100000 in
theorem work_bounded_busy : ∃ s, run ⟨.block, 2, 2⟩ .above busyEvents = .ok s ∧
    busyEvents.length ≤ 2 + (2 + 7) * s.accepted.length + 2 * busyEvents.countP Event.isSpurious :=
  work_bounded ⟨.block, 2, 2⟩ .above busyEvents (by decide +kernel)

/-! ## Rest -/

/-- Nobody can go on, but for a new connection or a wake-up without a signal. -/
def Quiet {n : Nat} (s : State n) : Prop :=
  ∀ e, Enabled s e → e.isSpurious = false → ∃ c, e = .accept c

theorem quiet_iff {n : Nat} {s : State n} :
    Quiet s ↔ (s.main = .accepting ∨ ∃ c, s.main = .blocked c) ∧ ∀ i, s.workers i = .asleep := by
  constructor
  · intro h
    constructor
    · cases hm : s.main with
      | accepting => exact .inl rfl
      | blocked c => exact .inr ⟨c, rfl⟩
      | arrived c =>
          obtain ⟨d, hd⟩ := h (.arrive (.plain n)) ⟨c, hm⟩ rfl
          cases hd
      | woken c =>
          obtain ⟨d, hd⟩ := h (.resume (.plain n)) ⟨c, hm⟩ rfl
          cases hd
    · intro i
      cases hw : s.workers i with
      | asleep => rfl
      | ready =>
          obtain ⟨d, hd⟩ := h (.take i) (.inl hw) rfl
          cases hd
      | woken =>
          obtain ⟨d, hd⟩ := h (.take i) (.inr hw) rfl
          cases hd
      | serving r =>
          obtain ⟨d, hd⟩ := h (.close i) ⟨r, hw⟩ rfl
          cases hd
      | finishing =>
          obtain ⟨d, hd⟩ := h (.finish i) hw rfl
          cases hd
  · rintro ⟨hm, hw⟩ e he hspurious
    cases e with
    | accept c => exact ⟨c, rfl⟩
    | arrive choice =>
        obtain ⟨c, he⟩ := he
        obtain hm | ⟨d, hm⟩ := hm
        all_goals
          rw [hm] at he
          cases he
    | resume choice =>
        obtain ⟨c, he⟩ := he
        obtain hm | ⟨d, hm⟩ := hm
        all_goals
          rw [hm] at he
          cases he
    | wakeMain => cases hspurious
    | wakeWorker i => cases hspurious
    | take i =>
        obtain he | he := he
        all_goals
          rw [hw i] at he
          cases he
    | close i =>
        obtain ⟨r, he⟩ := he
        rw [hw i] at he
        cases he
    | finish i =>
        have he' : s.workers i = .finishing := he
        rw [hw i] at he'
        cases he'

/-- **Where the server comes to rest**, everything is done: no request waits,
none is served, main is ready for the next connection, and every connection
was dispatched or dropped. Unless `DROP_HEAD` has been at work, each one has
been closed, once. -/
theorem quiet_is_done (cfg : Config) (malloc : Allocator) (es : List (Event cfg.threadNum))
    {s : State cfg.threadNum} (hthreads : 0 < cfg.threadNum) (hsize : 0 < cfg.queueSize)
    (h : Throughout cfg malloc Enabled es) (hrun : run cfg malloc es = .ok s) (hquiet : Quiet s) :
    s.main = .accepting ∧ s.queue.waitingQueueSize = 0 ∧ s.runningThreads = 0 ∧
      (∀ c ∈ s.accepted, c ∈ s.dispatched ∨ c ∈ s.dropped) ∧
      (cfg.policy ≠ .dropHead → s.closed.Perm s.accepted) := by
  obtain ⟨s', hrun', L, a, hrep, halert, hcounted, hordered, hplaces⟩ :=
    run_refines (cfg.policy = .dropHead) malloc
      (P := Enabled) (fun s e he => ⟨he, fun hevicts => by
        cases e with
        | arrive choice => exact hevicts.1
        | _ => exact hevicts.elim⟩)
      (I := fun a => a.Alert cfg ∧ a.Counted cfg ∧ a.Ordered cfg ∧
        (cfg.policy ≠ .dropHead → ∀ c, a.places c = a.accepted.count c))
      ⟨⟨fun _ hb => by simp [Spec.start] at hb, fun ⟨_, hw⟩ => by simp [Spec.start] at hw⟩,
        ⟨by simp [Spec.start, WorkerState.busy], by simpa [Spec.start] using hsize.le⟩,
        ⟨.nil, .refl _, by simp [Spec.start], rfl, fun _ => rfl⟩,
        fun _ c => by simp [Spec.places, Spec.start, MainState.held, WorkerState.serves]⟩
      (fun _ _ hI hs => ⟨hI.1.step hs, hI.2.1.step hs, hI.2.2.1.step hs,
        fun hp c => (hs.mono hp).places (hI.2.2.2 hp c)⟩) h
  obtain rfl := Except.ok.inj (hrun'.symm.trans hrun)
  obtain ⟨hmain, hasleep⟩ := quiet_iff.mp hquiet
  have hworkers : ∀ i, a.workers i = .asleep := fun i => (hrep.asleep_iff i).mp (hasleep i)
  have hwaiting : a.waiting = [] := by
    have hle := halert.workers ⟨⟨0, hthreads⟩, hworkers _⟩
    simp only [hworkers, WorkerState.stirring, Finset.sum_const_zero] at hle
    exact List.length_eq_zero_iff.mp (by omega)
  have hrunning : a.running = 0 := by
    rw [hcounted.running]
    simp [hworkers, WorkerState.busy]
  have haccepting : a.main = .accepting := by
    rw [← hrep.main]
    obtain hm | ⟨c, hm⟩ := hmain
    · exact hm
    · have hfull := halert.main c (hrep.main ▸ hm)
      rw [Spec.Full, hwaiting, hrunning] at hfull
      simp only [List.length_nil, Nat.cast_zero] at hfull
      omega
  refine ⟨hrep.main.trans haccepting, ?_, hrep.running.trans hrunning, fun c hc => ?_, fun hp => ?_⟩
  · rw [hrep.size, hwaiting]
    rfl
  · rw [hrep.accepted] at hc
    rw [hrep.dispatched, hrep.dropped]
    by_contra hnot
    rw [not_or] at hnot
    have hleft : c ∈ a.waiting ++ a.main.held := by
      rw [← hordered.left, List.mem_filter]
      exact ⟨hc, by simpa using hnot⟩
    rw [hwaiting, haccepting] at hleft
    cases hleft
  · rw [hrep.closed, hrep.accepted, List.perm_iff_count]
    intro c
    have hone := hplaces hp c
    rw [Spec.places, hwaiting, haccepting] at hone
    simpa [MainState.held, hworkers, WorkerState.serves] using hone

/-- One worker and room for one: the second connection is turned away, the
first one is served, and the worker goes to sleep. -/
def restingEvents : List (Event 1) :=
  [.accept 4, .arrive (.plain 1), .accept 5, .arrive (.plain 1), .take (.last 0),
    .close (.last 0), .finish (.last 0), .take (.last 0)]

set_option maxRecDepth 100000 in
theorem quiet_is_done_resting : ∃ s, run ⟨.dropTail, 1, 1⟩ .above restingEvents = .ok s ∧
    Quiet s ∧ s.accepted = [4, 5] ∧ s.closed.Perm s.accepted := by
  obtain ⟨s, hrun, hmain, hasleep, haccepted⟩ := (show Outcome
    (fun s : State 1 => s.main = .accepting ∧ (∀ i, s.workers i = .asleep) ∧ s.accepted = [4, 5])
    (fun _ => False) (run ⟨.dropTail, 1, 1⟩ .above restingEvents) by decide +kernel).exists_ok
  have hquiet : Quiet s := quiet_iff.mpr ⟨.inl hmain, hasleep⟩
  obtain ⟨-, -, -, -, hclosed⟩ := quiet_is_done ⟨.dropTail, 1, 1⟩ .above restingEvents (by decide)
    (by decide) (by decide +kernel) hrun hquiet
  exact ⟨s, hrun, hquiet, haccepted, hclosed (by decide)⟩

end OsAllHw.Server
