import OsAllHw.Server.Connections
import OsAllHw.Server.Request

/-!
# An unknown policy

`getargs` takes any word for a policy; one that it does not know is kept as
`-1`, and main then has no branch for a full queue. It behaves like a queue
that is never full.
-/

namespace OsAllHw.Server

open Lib

/-- `sched_alg` of the fourth argument; `none` is `-1`. -/
def schedAlg (arg : Text) : Option Policy :=
  if arg = "block".toList then some .block
  else if arg = "dt".toList then some .dropTail
  else if arg = "dh".toList then some .dropHead
  else if arg = "random".toList then some .random
  else none

section Unknown

variable {n : Nat} {cfg : Config}

/-- Main's critical section for any `sched_alg`: the branches for a full queue
are tests of it. -/
def mainSectionAlg (cfg : Config) (alg : Option Policy) (s : State n) (connfd : Int)
    (choice : Choice n) : Except Fault (State n) :=
  match alg with
  | some policy => mainSection { cfg with policy := policy } s connfd choice
  | none => letIn s connfd choice

/-- The events for any `sched_alg`; only main looks at it. -/
def execAlg (cfg : Config) (alg : Option Policy) (s : State n) : Event n → Except Fault (State n)
  | .arrive choice =>
      match s.main with
      | .arrived connfd => mainSectionAlg cfg alg s connfd choice
      | _ => .ok s
  | e => exec cfg s e

/-- A run for any `sched_alg`. -/
def runAlg (cfg : Config) (alg : Option Policy) (malloc : Allocator)
    (es : List (Event cfg.threadNum)) : Except Fault (State cfg.threadNum) :=
  State.start cfg malloc >>= fun s => runFrom (execAlg cfg alg) s es

/-- Every event of such a run is enabled where it is made. -/
def EnabledAlg (cfg : Config) (alg : Option Policy) (malloc : Allocator)
    (es : List (Event cfg.threadNum)) : Prop :=
  match State.start cfg malloc with
  | .ok s => Along (execAlg cfg alg) (fun s e => Enabled s e) s es
  | .error _ => True

instance (cfg : Config) (alg : Option Policy) (malloc : Allocator)
    (es : List (Event cfg.threadNum)) : Decidable (EnabledAlg cfg alg malloc es) :=
  match h : State.start cfg malloc with
  | .ok s => decidable_of_iff (Along (execAlg cfg alg) (fun s e => Enabled s e) s es)
      (by rw [EnabledAlg, h])
  | .error _ => .isTrue (by rw [EnabledAlg, h]; trivial)

/-! ## A queue that is large enough -/

/-- Main waits for nothing. -/
def MainState.Free (m : MainState) : Prop := m = .accepting ∨ ∃ c, m = .arrived c

theorem MainState.Free.signalled {m : MainState} (h : m.Free) (full : Prop) [Decidable full] :
    m.signalled full = m := by
  obtain rfl | ⟨c, rfl⟩ := h <;> simp [MainState.signalled]

/-- With room for `size` requests and main free, and nothing dropped. -/
structure Spec.Roomy (size : Int) (a : Spec n) : Prop where
  room : a.waiting.length + a.running < size
  main : a.main.Free
  dropped : a.dropped = []

/-- A step takes one place at most, and with room main does not wait. -/
theorem Spec.Roomy.step {lost : Prop} {a a' : Spec n} {size : Int} (h : a.Roomy size)
    (hsize : size ≤ cfg.queueSize) (hs : Step cfg lost a a') :
    a'.Roomy (size + 1) := by
  obtain ⟨hroom, hmain, hdropped⟩ := h
  have hfull : ¬a.Full cfg := fun hfull => absurd (hroom.trans_le hsize) (Int.not_lt.mpr hfull)
  cases hs with
  | accept c hm hc => exact ⟨by simp only; omega, .inr ⟨c, rfl⟩, hdropped⟩
  | sleep c hm hf => exact absurd hf hfull
  | reject c hm hb hf => exact absurd hf hfull
  | letIn c W hm hroom' hW =>
      refine ⟨?_, .inl rfl, hdropped⟩
      rw [List.length_append, List.length_singleton]
      push_cast
      omega
  | admitHead c v rest W hl hm hb hf hq hW => exact absurd hf hfull
  | admitRandom c victims rest W hm hb hf hq hlen hsub hperm hW => exact absurd hf hfull
  | wakeMain c hm =>
      rw [hm] at hmain
      obtain hm | ⟨d, hm⟩ := hmain <;> cases hm
  | wakeWorker i hw => exact ⟨by simp only; omega, hmain, hdropped⟩
  | sleepWorker i hw hq => exact ⟨by simp only; omega, hmain, hdropped⟩
  | take i c rest a' hw hq ha =>
      subst ha
      rw [hq, List.length_cons] at hroom
      push_cast at hroom
      refine ⟨by simp only; omega, ?_, hdropped⟩
      rw [hmain.signalled]
      exact hmain
  | close i c hw => exact ⟨by simp only; omega, hmain, hdropped⟩
  | finish i a' hw ha =>
      subst ha
      refine ⟨by simp only; omega, ?_, hdropped⟩
      rw [hmain.signalled]
      exact hmain

/-- A signal that nobody waits for. -/
theorem signalFull_same (cfg big : Config) (s : State n) (h : s.main.Free) :
    signalFull cfg s = signalFull big s := by
  have hsame (cfg : Config) : signalFull cfg s = s := by
    rw [signalFull]
    split
    · rfl
    · obtain hm | ⟨c, hm⟩ := h
      all_goals
        rw [hm]
  rw [hsame cfg, hsame big]

/-- The same event on a queue that is not full. -/
theorem execAlg_none {big : Config} {s : State n} {e : Event n} (hfree : s.main.Free)
    (hfull : ¬Full big s) (he : Enabled s e) : execAlg cfg none s e = exec big s e := by
  cases e with
  | arrive choice =>
      obtain ⟨c, hm⟩ := he
      simp only [execAlg, exec, hm, mainSectionAlg, mainSection, if_neg hfull]
  | resume choice =>
      obtain ⟨c, hm⟩ := he
      rw [hm] at hfree
      obtain hm | ⟨d, hm⟩ := hfree <;> cases hm
  | take i =>
      change workerTakes cfg s i = workerTakes big s i
      rw [workerTakes, workerTakes]
      split
      · rfl
      · refine bind_congr fun x => bind_congr fun y => ?_
        exact congrArg Except.ok (signalFull_same cfg big _ hfree)
  | finish i =>
      change Except.ok (workerFinishes cfg s i) = .ok (workerFinishes big s i)
      exact congrArg Except.ok (signalFull_same cfg big _ hfree)
  | _ => rfl

/-- **A run** with an unknown policy is one with a queue that is large enough. -/
theorem runAlg_roomy (big : Config) {es : List (Event n)} {s : State n}
    {L : List Nat} {a : Spec n} (size : Int) (hrep : Represents s L a) (hord : a.Ordered big)
    (hroomy : a.Roomy size) (hsize : size + es.length ≤ big.queueSize)
    (h : Along (execAlg cfg none) (fun s e => Enabled s e) s es) :
    ∃ s' L' a', runFrom (execAlg cfg none) s es = .ok s' ∧ Represents s' L' a' ∧
      a'.Ordered big ∧ a'.Roomy (size + es.length) := by
  induction es generalizing s L a size with
  | nil =>
      refine ⟨s, L, a, rfl, hrep, hord, ?_⟩
      rw [List.length_nil, Nat.cast_zero, Int.add_zero]
      exact hroomy
  | cons e es ih =>
      obtain ⟨he, hrest⟩ := h
      rw [List.length_cons] at hsize ⊢
      push_cast at hsize ⊢
      have hfull : ¬Full big s := by
        rw [hrep.full_iff, Spec.Full]
        have := hroomy.room
        omega
      obtain ⟨s', L', a', hrun, hstep, hrep'⟩ : ∃ s' L' a', exec big s e = .ok s' ∧
          Step big (Evicts big s e) a a' ∧ Represents s' L' a' := exec_refines hrep he
      have hexec : execAlg cfg none s e = .ok s' :=
        (execAlg_none (hrep.main ▸ hroomy.main) hfull he).trans hrun
      rw [hexec] at hrest
      obtain ⟨s₁, L₁, a₁, hrun₁, hrep₁, hord₁, hroomy₁⟩ := ih (size + 1) hrep' (hord.step hstep)
        (hroomy.step (by omega) hstep) (by omega) hrest
      refine ⟨s₁, L₁, a₁, ?_, hrep₁, hord₁, ?_⟩
      · rw [runFrom, hexec]
        exact hrun₁
      · rwa [Int.add_comm (es.length : Int) 1, ← Int.add_assoc]

end Unknown

/-- **An unknown policy** neither drops a connection nor waits: whatever the
queue size, every connection accepted has been dispatched, or waits, or is
about to be let in, in the order of arrival. -/
theorem unknown_policy_keeps_all (cfg : Config) (malloc : Allocator) (arg : Text)
    (es : List (Event cfg.threadNum)) (harg : schedAlg arg = none)
    (h : EnabledAlg cfg (schedAlg arg) malloc es) :
    ∃ s, runAlg cfg (schedAlg arg) malloc es = .ok s ∧ s.dropped = [] ∧ s.main.Free ∧
      ∃ L, s.queue.Lists L ∧
        s.dispatched ++ (L.map s.queue.fd ++ s.main.held) = s.accepted := by
  obtain ⟨s, hstart, hrep⟩ := start_represents cfg malloc
  rw [harg] at h ⊢
  rw [EnabledAlg, hstart] at h
  rw [runAlg, hstart, ok_bind]
  obtain ⟨s', L, a, hrun, hrep', hord, hroomy⟩ := runAlg_roomy
    ⟨.block, cfg.threadNum, 1 + es.length⟩ 1 hrep
    ⟨.nil, .refl _, by simp [Spec.start], rfl, fun _ => rfl⟩
    ⟨by simp [Spec.start], .inl rfl, rfl⟩ le_rfl h
  refine ⟨s', hrun, ?_, ?_, L, hrep'.lists, ?_⟩
  · rw [hrep'.dropped, hroomy.dropped]
  · rw [hrep'.main]
    exact hroomy.main
  · rw [hrep'.dispatched, hrep'.waiting, hrep'.main, hrep'.accepted]
    exact hord.block rfl

/-- Three connections on a queue of size one. -/
def threeArrive : List (Event 1) :=
  [.accept 4, .arrive (.plain 1), .accept 5, .arrive (.plain 1), .accept 6, .arrive (.plain 1),
    .take 0]

set_option maxRecDepth 100000 in
theorem unknown_policy_keeps_all_fifo : ∃ s,
    runAlg ⟨.block, 1, 1⟩ (schedAlg "fifo".toList) .above threeArrive = .ok s ∧ s.dropped = [] := by
  obtain ⟨s, hrun, hdropped, -⟩ := unknown_policy_keeps_all ⟨.block, 1, 1⟩ .above "fifo".toList
    threeArrive (by decide) (by decide +kernel)
  exact ⟨s, hrun, hdropped⟩

end OsAllHw.Server
