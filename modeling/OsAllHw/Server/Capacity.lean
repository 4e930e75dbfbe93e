import OsAllHw.Server.Spec

/-!
# Capacity and wake-ups

What every run of the server keeps, whatever the policy: the counters count
what they are named after, their sum stays within `queue_size`, and nobody
sleeps who has something to do. A run also never faults, so no thread ever
follows a dangling pointer; in particular none dequeues from an empty queue.
-/

namespace OsAllHw.Server

open Lib

/-! ## Runs -/

section Runs

variable {n : Nat} {cfg : Config}

theorem Step.mono {lost lost' : Prop} (hl : lost → lost') {a a' : Spec n} (h : Step cfg lost a a') :
    Step cfg lost' a a' := by
  cases h with
  | accept c hm hc => exact .accept c hm hc
  | sleep c hm hfull => exact .sleep c hm hfull
  | reject c hm hp hfull => exact .reject c hm hp hfull
  | letIn c W hm hroom hW => exact .letIn c W hm hroom hW
  | admitHead c v rest W hlost hm hp hfull hq hW =>
      exact .admitHead c v rest W (hl hlost) hm hp hfull hq hW
  | admitRandom c victims rest W hm hp hfull hq hlen hsub hperm hW =>
      exact .admitRandom c victims rest W hm hp hfull hq hlen hsub hperm hW
  | wakeMain c hm => exact .wakeMain c hm
  | wakeWorker i hw => exact .wakeWorker i hw
  | sleepWorker i hw hq => exact .sleepWorker i hw hq
  | take i c rest a' hw hq ha => exact .take i c rest a' hw hq ha
  | close i c hw => exact .close i c hw
  | finish i a' hw ha => exact .finish i a' hw ha

def Spec.start (n : Nat) : Spec n :=
  { waiting := [], running := 0, main := .accepting, workers := fun _ => .ready, accepted := [],
    dispatched := [], dropped := [], closed := [] }

/-- The server starts where the specification does. -/
theorem start_represents (cfg : Config) (malloc : Allocator) :
    ∃ s, State.start cfg malloc = .ok s ∧ Represents s [] (.start cfg.threadNum) := by
  obtain ⟨q, hq, hlists, -⟩ := createQueue_spec malloc cfg.queueSize
  refine ⟨_, by rw [State.start, hq]; rfl, ?_⟩
  exact ⟨hlists, rfl, fun _ => rfl, fun i p hw => by simp at hw, fun i j p hw => by simp at hw,
    rfl, rfl, rfl, rfl, rfl, rfl⟩

/-- **Runs.** What every step of the specification preserves holds, for the
specification's view of the state, at the end of every run. -/
theorem run_refines (lost : Prop) (malloc : Allocator)
    {P : State cfg.threadNum → Event cfg.threadNum → Prop}
    (hP : ∀ s e, P s e → Enabled s e ∧ (Evicts cfg s e → lost))
    {I : Spec cfg.threadNum → Prop} (hinit : I (.start _))
    (hstep : ∀ a a', I a → Step cfg lost a a' → I a') {es : List (Event cfg.threadNum)}
    (h : Throughout cfg malloc P es) :
    ∃ s, run cfg malloc es = .ok s ∧ ∃ L a, Represents s L a ∧ I a := by
  obtain ⟨q, hq, hlists, -⟩ := createQueue_spec malloc cfg.queueSize
  obtain ⟨s₀, hs₀⟩ : ∃ s₀ : State cfg.threadNum, s₀ =
    { queue := q, runningThreads := 0, main := .accepting, workers := fun _ => .ready,
      accepted := [], dispatched := [], dropped := [], closed := [] } := ⟨_, rfl⟩
  have hstart : State.start cfg malloc = .ok s₀ := by
    rw [State.start, hq, hs₀]
    rfl
  rw [Throughout, hstart] at h
  rw [run, hstart, ok_bind]
  refine Outcome.exists_ok (runFrom_outcome (I := fun s => ∃ L a, Represents s L a ∧ I a)
    ?_ ⟨[], .start _, ?_, hinit⟩ h)
  · rintro s e ⟨L, a, hrep, hI⟩ hPe
    obtain ⟨s', L', a', hrun, hs, hrep'⟩ := exec_refines hrep (hP s e hPe).1
    rw [hrun]
    exact ⟨L', a', hrep', hstep a a' hI (hs.mono (hP s e hPe).2)⟩
  · rw [hs₀]
    exact ⟨hlists, rfl, fun _ => rfl, fun i p hw => by simp at hw, fun i j p hw => by simp at hw,
      rfl, rfl, rfl, rfl, rfl, rfl⟩

end Runs

/-! ## Counting workers -/

section Counting

variable {n : Nat} {ρ : Type} (f : WorkerState ρ → Nat) {w : Fin n → WorkerState ρ}

theorem sum_update (w : Fin n → WorkerState ρ) (i : Fin n) (x : WorkerState ρ) :
    ∑ j, f (Function.update w i x j) + f (w i) = ∑ j, f (w j) + f x := by
  have hcomp : (fun j => f (Function.update w i x j)) =
      Function.update (fun j => f (w j)) i (f x) := by
    funext j
    by_cases hj : j = i
    · subst hj; simp
    · simp [hj]
  rw [hcomp, Finset.sum_update_of_mem (Finset.mem_univ i),
    ← Finset.add_sum_erase _ _ (Finset.mem_univ i), Finset.sdiff_singleton_eq_erase]
  omega

theorem sum_wakeAll {W : Finset (Fin n)} (hf : f .woken = f .asleep) (hW : Wakes w W) :
    ∑ j, f (wakeAll w W j) = ∑ j, f (w j) := by
  refine Finset.sum_congr rfl fun j _ => ?_
  unfold wakeAll
  split
  · rename_i hj
    rw [hf, hW.asleep j hj]
  · rfl

end Counting

/-- Between `dequeue` and the end of the second section. -/
def WorkerState.busy {ρ : Type} : WorkerState ρ → Nat
  | .serving _ => 1
  | .finishing => 1
  | _ => 0

/-- Woken, and `m1` not yet re-acquired. -/
def WorkerState.stirring {ρ : Type} : WorkerState ρ → Nat
  | .woken => 1
  | _ => 0

/-! ## The counters -/

section Counters

variable {n : Nat} {cfg : Config} {lost : Prop} {a a' : Spec n}

structure Spec.Counted (cfg : Config) (a : Spec n) : Prop where
  running : a.running = ∑ i, (a.workers i).busy
  fits : a.waiting.length + a.running ≤ cfg.queueSize

theorem Spec.Counted.step (h : a.Counted cfg) (hs : Step cfg lost a a') : a'.Counted cfg := by
  obtain ⟨hrun, hfits⟩ := h
  cases hs with
  | accept c hm hc => exact ⟨hrun, hfits⟩
  | sleep c hm hfull => exact ⟨hrun, hfits⟩
  | reject c hm hp hfull => exact ⟨hrun, hfits⟩
  | wakeMain c hm => exact ⟨hrun, hfits⟩
  | letIn c W hm hroom hW =>
      refine ⟨hrun.trans ?_, ?_⟩
      · exact congrArg _ (sum_wakeAll WorkerState.busy rfl hW).symm
      · unfold Spec.Full at hroom
        simp only [List.length_append, List.length_singleton]
        omega
  | admitHead c v rest W hl hm hp hfull hq hW =>
      refine ⟨hrun.trans ?_, ?_⟩
      · exact congrArg _ (sum_wakeAll WorkerState.busy rfl hW).symm
      · rw [hq] at hfits
        simpa using hfits
  | admitRandom c victims rest W hm hp hfull hq hlen hsub hperm hW =>
      refine ⟨hrun.trans ?_, ?_⟩
      · exact congrArg _ (sum_wakeAll WorkerState.busy rfl hW).symm
      · have hpos := List.length_pos_iff.mpr hq
        have hsum := hperm.length_eq
        rw [List.length_append] at hsum
        simp only [List.length_append, List.length_singleton]
        omega
  | wakeWorker i hw =>
      have := sum_update WorkerState.busy a.workers i .woken
      rw [hw] at this
      exact ⟨hrun.trans (congrArg _ this.symm), hfits⟩
  | sleepWorker i hw hq =>
      have := sum_update WorkerState.busy a.workers i .asleep
      refine ⟨hrun.trans (congrArg _ ?_), hfits⟩
      rcases hw with hw | hw <;> (rw [hw] at this; exact this.symm)
  | take i c rest a' hw hq ha =>
      subst ha
      have hsum := sum_update WorkerState.busy a.workers i (.serving c)
      have hidle : (a.workers i).busy = 0 := by rcases hw with hw | hw <;> rw [hw] <;> rfl
      rw [hidle] at hsum
      change _ + 0 = _ + 1 at hsum
      refine ⟨?_, ?_⟩
      · change a.running + 1 =
          ((∑ j, (Function.update a.workers i (.serving c) j).busy : Nat) : Int)
        omega
      · rw [hq, List.length_cons] at hfits
        change (rest.length : Int) + (a.running + 1) ≤ _
        omega
  | close i c hw =>
      have := sum_update WorkerState.busy a.workers i .finishing
      rw [hw] at this
      exact ⟨hrun.trans (congrArg _ (Nat.add_right_cancel this).symm), hfits⟩
  | finish i a' hw ha =>
      subst ha
      have hsum := sum_update WorkerState.busy a.workers i .ready
      rw [hw] at hsum
      refine ⟨?_, ?_⟩
      · change a.running - 1 = ((∑ j, (Function.update a.workers i .ready j).busy : Nat) : Int)
        change _ + 1 = _ + 0 at hsum
        omega
      · change (a.waiting.length : Int) + (a.running - 1) ≤ _
        omega

end Counters

/-! ## Wake-ups -/

section Wakeups

variable {n : Nat} {cfg : Config} {lost : Prop} {a a' : Spec n}

structure Spec.Alert (cfg : Config) (a : Spec n) : Prop where
  main : ∀ c, a.main = .blocked c → a.Full cfg
  /-- While somebody sleeps, as many are waking up as requests wait. -/
  workers : (∃ i, a.workers i = .asleep) → a.waiting.length ≤ ∑ i, (a.workers i).stirring

/-- A signal that is sent if there is room leaves nobody blocked on room. -/
theorem MainState.signalled_blocked {full : Prop} [Decidable full] {m : MainState} {c : Int}
    (h : m.signalled full = .blocked c) : full := by
  unfold MainState.signalled at h
  split at h
  · assumption
  · split at h <;> simp_all

/-- Signalling after a request was added. -/
theorem stirring_wakeAll {w : Fin n → WorkerState Int} {W : Finset (Fin n)} (hW : Wakes w W)
    (h : ∃ i, wakeAll w W i = .asleep) :
    (∃ i, w i = .asleep) ∧ ∑ i, (w i).stirring + 1 ≤ ∑ i, (wakeAll w W i).stirring := by
  obtain ⟨i, hi⟩ := h
  have hasleep : w i = .asleep := by
    unfold wakeAll at hi
    split at hi
    · cases hi
    · exact hi
  obtain ⟨j, hj⟩ := hW.nonempty ⟨i, hasleep⟩
  refine ⟨⟨i, hasleep⟩, ?_⟩
  have hle : ∀ k, (w k).stirring ≤ (wakeAll w W k).stirring := by
    intro k
    unfold wakeAll
    split
    · rename_i hk
      rw [hW.asleep k hk]
      exact Nat.zero_le _
    · exact le_rfl
  refine Finset.sum_lt_sum (fun k _ => hle k) ⟨j, Finset.mem_univ j, ?_⟩
  rw [hW.asleep j hj, wakeAll, if_pos hj]
  exact Nat.zero_lt_one

/-- A worker that does not go to sleep adds no sleeper. -/
theorem asleep_of_update {w : Fin n → WorkerState Int} {i : Fin n} {x : WorkerState Int}
    (hx : x ≠ .asleep) (h : ∃ j, Function.update w i x j = .asleep) : ∃ j, w j = .asleep := by
  obtain ⟨j, hj⟩ := h
  refine ⟨j, ?_⟩
  by_cases hji : j = i
  · subst hji
    rw [Function.update_self] at hj
    exact absurd hj hx
  · rwa [Function.update_of_ne hji] at hj

theorem Spec.Alert.step (h : a.Alert cfg) (hs : Step cfg lost a a') : a'.Alert cfg := by
  obtain ⟨hmain, hworkers⟩ := h
  cases hs with
  | accept c hm hc => exact ⟨fun _ hb => by simp at hb, hworkers⟩
  | sleep c hm hfull => exact ⟨fun _ _ => hfull, hworkers⟩
  | reject c hm hp hfull => exact ⟨fun _ hb => by simp at hb, hworkers⟩
  | wakeMain c hm => exact ⟨fun _ hb => by simp at hb, hworkers⟩
  | letIn c W hm hroom hW =>
      refine ⟨fun _ hb => by simp at hb, fun hsleep => ?_⟩
      obtain ⟨hbefore, hmore⟩ := stirring_wakeAll hW hsleep
      have := hworkers hbefore
      simp only [List.length_append, List.length_singleton]
      omega
  | admitHead c v rest W hl hm hp hfull hq hW =>
      refine ⟨fun _ hb => by simp at hb, fun hsleep => ?_⟩
      obtain ⟨hbefore, hmore⟩ := stirring_wakeAll hW hsleep
      have := hworkers hbefore
      rw [hq, List.length_cons] at this
      simp only [List.length_append, List.length_singleton]
      omega
  | admitRandom c victims rest W hm hp hfull hq hlen hsub hperm hW =>
      refine ⟨fun _ hb => by simp at hb, fun hsleep => ?_⟩
      obtain ⟨hbefore, hmore⟩ := stirring_wakeAll hW hsleep
      have := hworkers hbefore
      have := hsub.length_le
      simp only [List.length_append, List.length_singleton]
      omega
  | wakeWorker i hw =>
      have hsum := sum_update WorkerState.stirring a.workers i .woken
      rw [hw] at hsum
      change _ + 0 = _ + 1 at hsum
      refine ⟨hmain, fun _ => ?_⟩
      have := hworkers ⟨i, hw⟩
      change a.waiting.length ≤ ∑ j, (Function.update a.workers i .woken j).stirring
      omega
  | sleepWorker i hw hq =>
      refine ⟨hmain, fun _ => ?_⟩
      change a.waiting.length ≤ _
      rw [hq]
      exact Nat.zero_le _
  | take i c rest a' hw hq ha =>
      subst ha
      refine ⟨fun _ hb => MainState.signalled_blocked hb, ?_⟩
      intro hsleep
      have hbound := hworkers (asleep_of_update (by simp) hsleep)
      have hsum := sum_update WorkerState.stirring a.workers i (.serving c)
      have hone : (a.workers i).stirring ≤ 1 := by rcases hw with hw | hw <;> rw [hw] <;> decide
      change _ + _ = _ + 0 at hsum
      rw [hq, List.length_cons] at hbound
      change rest.length ≤ ∑ k, (Function.update a.workers i (.serving c) k).stirring
      omega
  | close i c hw =>
      have hsum := sum_update WorkerState.stirring a.workers i .finishing
      rw [hw] at hsum
      refine ⟨hmain, ?_⟩
      intro hsleep
      exact (hworkers (asleep_of_update (by simp) hsleep)).trans_eq (Nat.add_right_cancel hsum).symm
  | finish i a' hw ha =>
      subst ha
      have hsum := sum_update WorkerState.stirring a.workers i .ready
      rw [hw] at hsum
      refine ⟨fun _ hb => MainState.signalled_blocked hb, ?_⟩
      intro hsleep
      exact (hworkers (asleep_of_update (by simp) hsleep)).trans_eq (Nat.add_right_cancel hsum).symm

end Wakeups

/-! ## The program -/

section Program

variable {n : Nat} {s : State n} {L : List Nat} {a : Spec n}

theorem Represents.sum_eq (h : Represents s L a) (f : WorkerState Nat → Nat)
    (g : WorkerState Int → Nat) (hfg : ∀ w, g (w.map s.queue.fd) = f w) :
    ∑ i, g (a.workers i) = ∑ i, f (s.workers i) :=
  Finset.sum_congr rfl fun i _ => by rw [← h.workers i, hfg]

/-- `running_threads` workers are between `dequeue` and the end of their
request. -/
def State.busyWorkers (s : State n) : Finset (Fin n) :=
  Finset.univ.filter fun i => (∃ r, s.workers i = .serving r) ∨ s.workers i = .finishing

theorem State.card_busyWorkers (s : State n) :
    s.busyWorkers.card = ∑ i, (s.workers i).busy := by
  rw [State.busyWorkers, Finset.card_filter]
  refine Finset.sum_congr rfl fun i _ => ?_
  cases s.workers i <;> simp [WorkerState.busy]

/-- The workers that were woken and have not re-acquired `m1`. -/
def State.wakingWorkers (s : State n) : Finset (Fin n) :=
  Finset.univ.filter fun i => s.workers i = .woken

theorem State.card_wakingWorkers (s : State n) :
    s.wakingWorkers.card = ∑ i, (s.workers i).stirring := by
  rw [State.wakingWorkers, Finset.card_filter]
  refine Finset.sum_congr rfl fun i _ => ?_
  cases s.workers i <;> simp [WorkerState.stirring]

end Program

/-- **Capacity.** After any run `running_threads` and `waiting_queue_size`
count the busy workers and the queued nodes, together they are at most
`queue_size`, and the test before each `dequeue` says exactly whether the
queue is empty. -/
theorem within_capacity (cfg : Config) (malloc : Allocator) (es : List (Event cfg.threadNum))
    (hsize : 0 ≤ cfg.queueSize) (h : Throughout cfg malloc Enabled es) :
    ∃ s, run cfg malloc es = .ok s ∧
      s.runningThreads = s.busyWorkers.card ∧
      (∃ L, s.queue.Lists L ∧ s.queue.waitingQueueSize = L.length ∧
        (0 < s.queue.waitingQueueSize ↔ L ≠ [])) ∧
      s.queue.waitingQueueSize + s.runningThreads ≤ cfg.queueSize := by
  obtain ⟨s, hrun, L, a, hrep, hc⟩ := run_refines True malloc
    (fun s e he => ⟨he, fun _ => trivial⟩)
    (I := Spec.Counted cfg)
    ⟨by simp [Spec.start, WorkerState.busy], by simpa [Spec.start] using hsize⟩
    (fun _ _ hI hs => hI.step hs) h
  refine ⟨s, hrun, ?_, ⟨L, hrep.lists, hrep.lists.size, ?_⟩, ?_⟩
  · rw [hrep.running, hc.running, s.card_busyWorkers,
      hrep.sum_eq WorkerState.busy _ fun w => by cases w <;> rfl]
  · rw [hrep.lists.size, ← List.length_pos_iff]
    exact Int.natCast_pos
  · rw [hrep.size, hrep.running]
    exact hc.fits

/-- **No lost wake-up.** After any run, main is blocked un-woken only while
there is no room; a worker sleeps un-woken only while at most as many
requests wait as workers are waking up. -/
theorem no_lost_wakeup (cfg : Config) (malloc : Allocator) (es : List (Event cfg.threadNum))
    (hthreads : 1 ≤ cfg.threadNum) (h : Throughout cfg malloc Enabled es) :
    ∃ s, run cfg malloc es = .ok s ∧
      ((∃ c, s.main = .blocked c) →
        cfg.queueSize ≤ s.queue.waitingQueueSize + s.runningThreads) ∧
      ((∃ i, s.workers i = .asleep) → s.queue.waitingQueueSize ≤ s.wakingWorkers.card) ∧
      ¬(0 < s.queue.waitingQueueSize ∧ ∀ i, s.workers i = .asleep) := by
  obtain ⟨s, hrun, L, a, hrep, hc⟩ := run_refines True malloc
    (fun s e he => ⟨he, fun _ => trivial⟩) (I := Spec.Alert cfg)
    ⟨fun _ hb => by simp [Spec.start] at hb, fun ⟨_, hw⟩ => by simp [Spec.start] at hw⟩
    (fun _ _ hI hs => hI.step hs) h
  have hsleep : (∃ i, s.workers i = .asleep) → s.queue.waitingQueueSize ≤ s.wakingWorkers.card := by
    rintro ⟨i, hi⟩
    rw [hrep.size, s.card_wakingWorkers, ← hrep.sum_eq _ WorkerState.stirring
      fun w => by cases w <;> rfl]
    exact_mod_cast hc.workers ⟨i, (hrep.asleep_iff i).mp hi⟩
  refine ⟨s, hrun, ?_, hsleep, ?_⟩
  · rintro ⟨c, hm⟩
    have := hc.main c (hrep.main ▸ hm)
    rwa [← hrep.full_iff] at this
  · rintro ⟨hpos, hall⟩
    have hle := hsleep ⟨⟨0, hthreads⟩, hall _⟩
    have hnone : s.wakingWorkers = ∅ :=
      Finset.filter_eq_empty_iff.mpr fun i _ => by simp [hall i]
    rw [hnone, Finset.card_empty] at hle
    omega

/-! ## A run -/

/-- The first address above everything allocated. -/
def Allocator.above : Allocator where
  place A := A.sup id + 1
  nonnull _ := Nat.succ_ne_zero _
  fresh _ h := absurd (Finset.le_sup (f := id) h) (Nat.not_succ_le_self _)

/-- `pthread_cond_signal` that wakes everybody. -/
def Waker.all (n : Nat) : Waker n where
  wake S := S
  subset _ := Finset.Subset.refl _
  nonempty _ h := h

def Choice.plain (n : Nat) : Choice n := ⟨.above, .all n, fun _ => 0⟩

/-- Two workers and room for two: both sleep, a request wakes them, one
takes it, main fills the queue, blocks, and goes on when a request ends. -/
def busyEvents : List (Event 2) :=
  [.take 0, .take 1, .accept 4, .arrive (.plain 2), .take 0, .take 1, .wakeWorker 1,
    .accept 5, .arrive (.plain 2), .accept 6, .arrive (.plain 2), .close 0, .finish 0,
    .resume (.plain 2), .take 1]

set_option maxRecDepth 100000 in
theorem within_capacity_busy : ∃ s, run ⟨.block, 2, 2⟩ .above busyEvents = .ok s ∧
    s.queue.waitingQueueSize + s.runningThreads ≤ 2 := by
  obtain ⟨s, hrun, -, -, hfits⟩ := within_capacity ⟨.block, 2, 2⟩ .above busyEvents (by decide)
    (by decide +kernel)
  exact ⟨s, hrun, hfits⟩

set_option maxRecDepth 100000 in
theorem no_lost_wakeup_busy : ∃ s, run ⟨.block, 2, 2⟩ .above busyEvents = .ok s ∧
    ¬(0 < s.queue.waitingQueueSize ∧ ∀ i, s.workers i = .asleep) := by
  obtain ⟨s, hrun, -, -, hawake⟩ := no_lost_wakeup ⟨.block, 2, 2⟩ .above busyEvents (by decide)
    (by decide +kernel)
  exact ⟨s, hrun, hawake⟩

end OsAllHw.Server
