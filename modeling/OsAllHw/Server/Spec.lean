import OsAllHw.Server.Model

/-!
# The server as a queue of connections

What the server is for, without nodes and pointers: `Spec` holds the waiting
connections in order, and `Step` lists everything a thread can do to it. The
faithful model refines it (`exec_refines`), so a property of all steps of the
specification is a property of all runs of the program.
-/

namespace OsAllHw.Server

open Lib

/-! ## The specification -/

structure Spec (n : Nat) where
  waiting : List Int
  running : Int
  main : MainState
  workers : Fin n → WorkerState Int
  accepted : List Int
  dispatched : List Int
  dropped : List Int
  closed : List Int

def WorkerState.map {ρ σ : Type} (f : ρ → σ) : WorkerState ρ → WorkerState σ
  | .ready => .ready
  | .asleep => .asleep
  | .woken => .woken
  | .serving r => .serving (f r)
  | .finishing => .finishing

section Specification

variable {n : Nat}

def Spec.Full (cfg : Config) (a : Spec n) : Prop := cfg.queueSize ≤ a.waiting.length + a.running

instance (cfg : Config) (a : Spec n) : Decidable (a.Full cfg) := by
  unfold Spec.Full; infer_instance

/-- Workers in `W` are woken. -/
def wakeAll {ρ : Type} (w : Fin n → WorkerState ρ) (W : Finset (Fin n)) : Fin n → WorkerState ρ :=
  fun i => if i ∈ W then .woken else w i

/-- Main after a signal that is sent if there is room. -/
def MainState.signalled (full : Prop) [Decidable full] (m : MainState) : MainState :=
  if full then m
  else match m with
    | .blocked connfd => .woken connfd
    | m => m

/-- A possible answer of `pthread_cond_signal(&buffer_empty)`. -/
structure Wakes {ρ : Type} (w : Fin n → WorkerState ρ) (W : Finset (Fin n)) : Prop where
  asleep : ∀ i ∈ W, w i = .asleep
  nonempty : (∃ i, w i = .asleep) → W.Nonempty

/-- **One step of a thread.** `lost` says whether `DROP_HEAD` may evict a
waiting request in this step. -/
inductive Step (cfg : Config) (lost : Prop) (a : Spec n) : Spec n → Prop where
  | accept (c : Int) (hm : a.main = .accepting) (hc : c ∉ a.accepted) :
      Step cfg lost a { a with main := .arrived c, accepted := a.accepted ++ [c] }
  | sleep (c : Int) (hm : a.main = .arrived c ∧ cfg.policy = .block ∨ a.main = .woken c)
      (hfull : a.Full cfg) : Step cfg lost a { a with main := .blocked c }
  | reject (c : Int) (hm : a.main = .arrived c) (hp : cfg.policy ≠ .block) (hfull : a.Full cfg) :
      Step cfg lost a
        { a with main := .accepting, dropped := a.dropped ++ [c], closed := a.closed ++ [c] }
  | letIn (c : Int) (W : Finset (Fin n)) (hm : a.main = .arrived c ∨ a.main = .woken c)
      (hroom : ¬a.Full cfg) (hW : Wakes a.workers W) :
      Step cfg lost a
        { a with main := .accepting, waiting := a.waiting ++ [c], workers := wakeAll a.workers W }
  | admitHead (c v : Int) (rest : List Int) (W : Finset (Fin n)) (hl : lost)
      (hm : a.main = .arrived c) (hp : cfg.policy = .dropHead) (hfull : a.Full cfg)
      (hq : a.waiting = v :: rest) (hW : Wakes a.workers W) :
      Step cfg lost a
        { a with main := .accepting, waiting := rest ++ [c], workers := wakeAll a.workers W
                 dropped := a.dropped ++ [v] }
  | admitRandom (c : Int) (victims rest : List Int) (W : Finset (Fin n))
      (hm : a.main = .arrived c) (hp : cfg.policy = .random) (hfull : a.Full cfg)
      (hq : a.waiting ≠ []) (hlen : victims.length = (a.waiting.length + 3) / 4)
      (hsub : rest.Sublist a.waiting) (hperm : a.waiting.Perm (victims ++ rest))
      (hW : Wakes a.workers W) :
      Step cfg lost a
        { a with main := .accepting, waiting := rest ++ [c], workers := wakeAll a.workers W
                 dropped := a.dropped ++ victims, closed := a.closed ++ victims }
  | wakeMain (c : Int) (hm : a.main = .blocked c) : Step cfg lost a { a with main := .woken c }
  | wakeWorker (i : Fin n) (hw : a.workers i = .asleep) :
      Step cfg lost a { a with workers := Function.update a.workers i .woken }
  | sleepWorker (i : Fin n) (hw : a.workers i = .ready ∨ a.workers i = .woken)
      (hq : a.waiting = []) :
      Step cfg lost a { a with workers := Function.update a.workers i .asleep }
  | take (i : Fin n) (c : Int) (rest : List Int) (a' : Spec n)
      (hw : a.workers i = .ready ∨ a.workers i = .woken) (hq : a.waiting = c :: rest)
      (ha : a' = { a with waiting := rest, running := a.running + 1
                          workers := Function.update a.workers i (.serving c)
                          dispatched := a.dispatched ++ [c] }) :
      Step cfg lost a { a' with main := a.main.signalled (a'.Full cfg) }
  | close (i : Fin n) (c : Int) (hw : a.workers i = .serving c) :
      Step cfg lost a { a with workers := Function.update a.workers i .finishing
                               closed := a.closed ++ [c] }
  | finish (i : Fin n) (a' : Spec n) (hw : a.workers i = .finishing)
      (ha : a' = { a with running := a.running - 1
                          workers := Function.update a.workers i .ready }) :
      Step cfg lost a { a' with main := a.main.signalled (a'.Full cfg) }

/-- Main holds a connection in its section, about to evict the head. -/
def Evicts (cfg : Config) (s : State n) : Event n → Prop
  | .arrive _ => cfg.policy = .dropHead ∧ Full cfg s ∧ 0 < s.queue.waitingQueueSize
  | _ => False

instance (cfg : Config) (s : State n) : (e : Event n) → Decidable (Evicts cfg s e)
  | .arrive _ => inferInstanceAs (Decidable (_ ∧ _ ∧ _))
  | .accept _ => .isFalse id
  | .resume _ => .isFalse id
  | .wakeMain => .isFalse id
  | .wakeWorker _ => .isFalse id
  | .take _ => .isFalse id
  | .close _ => .isFalse id
  | .finish _ => .isFalse id

/-! ## Refinement -/

/-- The program state `s`, with the nodes `L` waiting, stands for `a`. -/
structure Represents (s : State n) (L : List Nat) (a : Spec n) : Prop where
  lists : s.queue.Lists L
  waiting : L.map s.queue.fd = a.waiting
  workers : ∀ i, (s.workers i).map s.queue.fd = a.workers i
  /-- A node a worker holds is allocated and off the list. -/
  held : ∀ i p, s.workers i = .serving p →
    p ∈ s.queue.allocated ∧ p ∉ s.queue.head :: (L ++ [s.queue.endNode])
  apart : ∀ i j p, s.workers i = .serving p → s.workers j = .serving p → i = j
  running : s.runningThreads = a.running
  main : s.main = a.main
  accepted : s.accepted = a.accepted
  dispatched : s.dispatched = a.dispatched
  dropped : s.dropped = a.dropped
  closed : s.closed = a.closed

section Refinement

variable {cfg : Config} {s : State n} {L L' : List Nat} {a : Spec n} {q' : Queue} {p : Nat}

theorem Represents.size (h : Represents s L a) :
    s.queue.waitingQueueSize = a.waiting.length := by
  rw [h.lists.size, ← h.waiting, List.length_map]

theorem Represents.full_iff (h : Represents s L a) : Full cfg s ↔ a.Full cfg := by
  rw [Full, Spec.Full, h.size, h.running]

/-- The queue changes, the nodes held by workers stay allocated and off it. -/
theorem Represents.setQueue (h : Represents s L a) (hl : q'.Lists L') (hk : s.queue.Kept q')
    (hheld : ∀ p ∈ s.queue.allocated, p ∉ s.queue.head :: (L ++ [s.queue.endNode]) →
      p ∈ q'.allocated ∧ p ∉ L') :
    Represents { s with queue := q' } L' { a with waiting := L'.map q'.fd } where
  lists := hl
  waiting := rfl
  workers := fun i => by
    change (s.workers i).map q'.fd = a.workers i
    rw [← h.workers i]
    cases hw : s.workers i with
    | serving p => exact congrArg _ (hk.fd p (h.held i p hw).1)
    | ready => rfl
    | asleep => rfl
    | woken => rfl
    | finishing => rfl
  held := fun i p hw => by
    obtain ⟨hp, hnot⟩ := h.held i p hw
    obtain ⟨hp', hnot'⟩ := hheld p hp hnot
    change p ∈ q'.allocated ∧ p ∉ q'.head :: (L' ++ [q'.endNode])
    rw [hk.head, hk.endNode]
    simp only [List.mem_cons, List.mem_append, not_or] at hnot ⊢
    exact ⟨hp', hnot.1, hnot', hnot.2.2⟩
  apart := h.apart
  running := h.running
  main := h.main
  accepted := h.accepted
  dispatched := h.dispatched
  dropped := h.dropped
  closed := h.closed

theorem Queue.Kept.map_fd {q : Queue} (hk : q.Kept q') (hL : ∀ b ∈ L, b ∈ q.allocated) :
    L.map q'.fd = L.map q.fd :=
  List.map_congr_left fun b hb => hk.fd b (hL b hb)

theorem Represents.allocated (h : Represents s L a) : ∀ b ∈ L, b ∈ s.queue.allocated :=
  fun b hb => h.lists.alloc b (by simp [hb])

theorem Represents.asleep_iff (h : Represents s L a) (i : Fin n) :
    s.workers i = .asleep ↔ a.workers i = .asleep := by
  rw [← h.workers i]
  cases s.workers i <;> simp [WorkerState.map]

/-- The signal on `buffer_empty`. -/
theorem Represents.signalEmpty (h : Represents s L a) (waker : Waker n) :
    ∃ W, Wakes a.workers W ∧
      Represents (signalEmpty s waker) L { a with workers := wakeAll a.workers W } := by
  have hsleep : ∀ i, i ∈ sleepers s ↔ a.workers i = .asleep := fun i => by
    rw [← h.asleep_iff, sleepers, Finset.mem_filter]
    simp
  refine ⟨waker.wake (sleepers s), ⟨fun i hi => (hsleep i).mp (waker.subset _ hi), ?_⟩, ?_⟩
  · rintro ⟨i, hi⟩
    exact waker.nonempty _ ⟨i, (hsleep i).mpr hi⟩
  · have hserving : ∀ i p, (Server.signalEmpty s waker).workers i = .serving p →
        s.workers i = .serving p := by
      intro i p hw
      change (if _ then _ else _) = _ at hw
      split at hw
      · cases hw
      · exact hw
    refine { h with
      workers := fun i => ?_
      held := fun i p hw => h.held i p (hserving i p hw)
      apart := fun i j p hi hj => h.apart i j p (hserving i p hi) (hserving j p hj) }
    change WorkerState.map _ (if _ then _ else _) = if _ then _ else _
    split
    · rfl
    · exact h.workers i

/-- The signal on `buffer_full`. -/
theorem Represents.signalFull (h : Represents s L a) (cfg : Config) :
    Represents (signalFull cfg s) L { a with main := a.main.signalled (a.Full cfg) } := by
  have hfull : Full cfg s ↔ a.Full cfg := h.full_iff
  unfold Server.signalFull MainState.signalled
  by_cases hf : a.Full cfg
  · rw [if_pos (hfull.mpr hf), if_pos hf]
    exact h
  · rw [if_neg fun hs => hf (hfull.mp hs), if_neg hf, ← h.main]
    cases hm : s.main with
    | blocked c => exact { h with main := rfl }
    | accepting => exact { h with main := hm }
    | arrived c => exact { h with main := hm }
    | woken c => exact { h with main := hm }

/-- **Admission** of a connection. -/
theorem Represents.letIn (h : Represents s L a) (c : Int) (choice : Choice n) :
    ∃ s' p W, letIn s c choice = .ok s' ∧ Wakes a.workers W ∧
      Represents s' (L ++ [p])
        { a with
          main := .accepting, waiting := a.waiting ++ [c], workers := wakeAll a.workers W } := by
  obtain ⟨q', p, hrun, hfresh, hlists, hkept, halloc, hfd⟩ := h.lists.enqueue choice.malloc c
  have h1 : Represents { s with queue := q' } (L ++ [p])
      { a with waiting := a.waiting ++ [c] } := by
    have hset := h.setQueue hlists hkept fun b hb hnot => by
      rw [halloc]
      refine ⟨Finset.mem_insert_of_mem hb, ?_⟩
      simp only [List.mem_cons, List.mem_append, not_or] at hnot ⊢
      exact ⟨hnot.2.1, fun hbp => hfresh (hbp ▸ hb), by simp⟩
    rw [List.map_append, hkept.map_fd h.allocated, h.waiting, List.map_singleton, hfd] at hset
    exact hset
  have h2 : Represents { s with queue := q', main := .accepting } (L ++ [p])
      { a with waiting := a.waiting ++ [c], main := .accepting } := { h1 with main := rfl }
  obtain ⟨W, hW, h3⟩ := h2.signalEmpty choice.waker
  refine ⟨_, p, W, ?_, hW, h3⟩
  rw [Server.letIn, hrun]
  rfl

/-- **Eviction** of the oldest request. -/
theorem Represents.evictHead (h : Represents s (p :: L) a) :
    ∃ s', evictHead s = .ok s' ∧
      Represents s' L
        { a with waiting := L.map s.queue.fd, dropped := a.dropped ++ [s.queue.fd p] } := by
  obtain ⟨q₁, hrun, hlists, hkept, halloc⟩ := h.lists.dequeue
  have hp : p ∈ q₁.allocated := by
    rw [halloc]
    exact h.allocated p (by simp)
  have hnot : p ∉ q₁.head :: (L ++ [q₁.endNode]) := by
    rw [hkept.head, hkept.endNode]
    have := h.lists.nodup
    simp only [List.cons_append, List.nodup_cons, List.mem_cons, not_or] at this ⊢
    exact ⟨fun he => this.1.1 he.symm, this.2.1⟩
  obtain ⟨q₂, hfree, hlists₂, hkept₂, halloc₂⟩ := hlists.free hp hnot
  have hk : s.queue.Kept q₂ := ⟨hkept₂.head.trans hkept.head, hkept₂.endNode.trans hkept.endNode,
    hkept₂.queueSize.trans hkept.queueSize, fun b hb =>
      (hkept₂.fd b (by rw [halloc]; exact hb)).trans (hkept.fd b hb)⟩
  have hfd : (q₁.nodes p).fd = s.queue.fd p := hkept.fd p (h.allocated p (by simp))
  have h1 : Represents { s with queue := q₂ } L { a with waiting := L.map s.queue.fd } := by
    have hset := h.setQueue hlists₂ hk fun b hb hbnot => by
      rw [halloc₂, halloc]
      simp only [List.cons_append, List.mem_cons, List.mem_append, not_or] at hbnot
      exact ⟨Finset.mem_erase.mpr ⟨hbnot.2.1, hb⟩, hbnot.2.2.1⟩
    rw [hk.map_fd fun b hb => h.allocated b (by simp [hb])] at hset
    exact hset
  refine ⟨{ s with queue := q₂, dropped := s.dropped ++ [s.queue.fd p] }, ?_,
    { h1 with dropped := congrArg (· ++ [s.queue.fd p]) h.dropped }⟩
  simp only [Server.evictHead, hrun, ok_bind, Queue.node_eq hp, hfree, hfd, pure_eq_ok]

/-- Taking out one of a list's elements. -/
theorem perm_eraseIdx {α : Type} {l : List α} {i : Nat} (hi : i < l.length) :
    l.Perm (l[i] :: l.eraseIdx i) := by
  induction l generalizing i with
  | nil => exact absurd hi (Nat.not_lt_zero i)
  | cons b l ih =>
      cases i with
      | zero => exact .refl _
      | succ i => exact ((ih (Nat.lt_of_succ_lt_succ hi)).cons b).trans (.swap _ _ _)

/-- **Eviction** of `k` requests at random places. -/
theorem Represents.evictRandom (rand : Nat → Nat) (k : Nat) (h : Represents s L a)
    (hk : k ≤ L.length) :
    ∃ s' L' victims rest, evictRandom rand k s = .ok s' ∧ victims.length = k ∧
      rest.Sublist a.waiting ∧ a.waiting.Perm (victims ++ rest) ∧
      Represents s' L' { a with waiting := rest, dropped := a.dropped ++ victims
                                closed := a.closed ++ victims } := by
  induction k generalizing s L a with
  | zero =>
      refine ⟨s, L, [], a.waiting, rfl, rfl, .refl _, .refl _, ?_⟩
      rw [List.append_nil, List.append_nil]
      exact h
  | succ k ih =>
      have hsize : s.queue.waitingQueueSize.toNat = L.length := by
        rw [h.lists.size, Int.toNat_natCast]
      obtain ⟨i, hi⟩ : ∃ i, i = rand k % s.queue.waitingQueueSize.toNat := ⟨_, rfl⟩
      have hlt : i < L.length := by
        rw [hi, hsize]
        exact Nat.mod_lt _ (by omega)
      obtain ⟨q', hrun, hlists, hkept, halloc⟩ := h.lists.randomDrop hlt
      have hsub : (L.eraseIdx i).Sublist L := List.eraseIdx_sublist L i
      have hp : L[i] ∈ L := List.getElem_mem hlt
      obtain ⟨s₁, hs₁⟩ : ∃ s₁ : State n, s₁ = { s with
        queue := q', dropped := s.dropped ++ [s.queue.fd L[i]],
        closed := s.closed ++ [s.queue.fd L[i]] } := ⟨_, rfl⟩
      have h1 : Represents s₁ (L.eraseIdx i) { a with
          waiting := (L.eraseIdx i).map s.queue.fd, dropped := a.dropped ++ [s.queue.fd L[i]],
          closed := a.closed ++ [s.queue.fd L[i]] } := by
        have hset := h.setQueue hlists hkept fun b hb hbnot => by
          have hbL : b ∉ L := fun hm => hbnot (by simp [hm])
          rw [halloc]
          exact ⟨Finset.mem_erase.mpr ⟨fun he => hbL (he ▸ hp), hb⟩, fun hm => hbL (hsub.subset hm)⟩
        rw [hkept.map_fd fun b hb => h.allocated b (hsub.subset hb)] at hset
        rw [hs₁]
        exact { hset with
          dropped := congrArg (· ++ [s.queue.fd L[i]]) h.dropped
          closed := congrArg (· ++ [s.queue.fd L[i]]) h.closed }
      have hlen : k ≤ (L.eraseIdx i).length := by
        rw [List.length_eraseIdx_of_lt hlt]
        omega
      obtain ⟨s', L', victims, rest, hrun', hvict, hsub', hperm, h2⟩ := ih h1 hlen
      refine ⟨s', L', s.queue.fd L[i] :: victims, rest, ?_, by rw [List.length_cons, hvict],
        ?_, ?_, ?_⟩
      · rw [Server.evictRandom]
        simp only [← hi, hrun, ok_bind, ← hs₁]
        exact hrun'
      · rw [← h.waiting]
        exact hsub'.trans (hsub.map _)
      · rw [← h.waiting]
        have hmap := (perm_eraseIdx hlt).map s.queue.fd
        exact hmap.trans (hperm.cons _)
      · simpa using h2

/-- A quarter, rounded up. -/
theorem ourCeil_quarter (w : Nat) : ourCeil ((w : Int) / 4 : ℚ) = ((w + 3) / 4 : Nat) := by
  have hnonneg : (0 : ℚ) ≤ (w : Int) / 4 := by positivity
  have htrunc : ((w : Int) / 4 : ℚ).num.tdiv ((w : Int) / 4 : ℚ).den = w / 4 := by
    rw [Int.tdiv_eq_ediv_of_nonneg (Rat.num_nonneg.mpr hnonneg), ← Rat.floor_def']
    exact Rat.floor_intCast_div_natCast w 4
  have hexact : ((w : Int) / 4 : ℚ) = ((w / 4 : Int) : ℚ) ↔ w % 4 = 0 := by
    rw [div_eq_iff (by norm_num)]
    norm_cast
    omega
  unfold ourCeil
  simp only [htrunc]
  by_cases hw : w % 4 = 0
  · rw [if_pos (hexact.mpr hw)]
    omega
  · rw [if_neg fun he => hw (hexact.mp he)]
    omega

/-- A worker that holds no request before or after. -/
theorem Represents.setWorker (h : Represents s L a) (i : Fin n) {x : WorkerState Nat}
    {y : WorkerState Int} (hx : ∀ p, x ≠ .serving p) (hy : x.map s.queue.fd = y) :
    Represents { s with workers := Function.update s.workers i x } L
      { a with workers := Function.update a.workers i y } := by
  have hserving : ∀ j p, Function.update s.workers i x j = .serving p →
      s.workers j = .serving p := by
    intro j p hj
    by_cases hji : j = i
    · subst hji
      rw [Function.update_self] at hj
      exact absurd hj (hx p)
    · rwa [Function.update_of_ne hji] at hj
  refine { h with
    workers := fun j => ?_
    held := fun j p hj => h.held j p (hserving j p hj)
    apart := fun j k p hj hk => h.apart j k p (hserving j p hj) (hserving k p hk) }
  change (Function.update s.workers i x j).map _ = Function.update a.workers i y j
  by_cases hji : j = i
  · subst hji
    rw [Function.update_self, Function.update_self, hy]
  · rw [Function.update_of_ne hji, Function.update_of_ne hji, h.workers j]

/-- A worker that holds no request and takes the oldest one. -/
theorem Represents.take (h : Represents s (p :: L) a) (i : Fin n)
    (hw : s.workers i = .ready ∨ s.workers i = .woken) (hlists : q'.Lists L)
    (hk : s.queue.Kept q') (halloc : q'.allocated = s.queue.allocated) :
    Represents
      { s with queue := q', runningThreads := s.runningThreads + 1
               workers := Function.update s.workers i (.serving p)
               dispatched := s.dispatched ++ [s.queue.fd p] } L
      { a with waiting := L.map s.queue.fd, running := a.running + 1
               workers := Function.update a.workers i (.serving (s.queue.fd p))
               dispatched := a.dispatched ++ [s.queue.fd p] } := by
  have h1 : Represents { s with queue := q' } L { a with waiting := L.map s.queue.fd } := by
    have hset := h.setQueue hlists hk fun b hb hbnot => by
      simp only [List.cons_append, List.mem_cons, List.mem_append, not_or] at hbnot
      exact ⟨halloc ▸ hb, hbnot.2.2.1⟩
    rw [hk.map_fd fun b hb => h.allocated b (by simp [hb])] at hset
    exact hset
  have hp : p ∈ s.queue.allocated := h.allocated p (by simp)
  have hnot : p ∉ q'.head :: (L ++ [q'.endNode]) := by
    rw [hk.head, hk.endNode]
    have := h.lists.nodup
    simp only [List.cons_append, List.nodup_cons, List.mem_cons, not_or] at this ⊢
    exact ⟨fun he => this.1.1 he.symm, this.2.1⟩
  -- nobody else holds the node, it was waiting
  have hfree : ∀ j r, s.workers j = .serving r → r ≠ p := by
    intro j r hj he
    exact (h.held j r hj).2 (by simp [he])
  refine { h1 with
    workers := fun j => ?_, held := fun j r hj => ?_, apart := fun j k r hj hk => ?_
    running := congrArg (· + 1) h.running
    dispatched := congrArg (· ++ [s.queue.fd p]) h.dispatched }
  · change (Function.update s.workers i (.serving p) j).map q'.fd =
      Function.update a.workers i (.serving (s.queue.fd p)) j
    by_cases hji : j = i
    · subst hji
      rw [Function.update_self, Function.update_self, WorkerState.map, hk.fd p hp]
    · rw [Function.update_of_ne hji, Function.update_of_ne hji]
      exact h1.workers j
  · change Function.update s.workers i (.serving p) j = _ at hj
    by_cases hji : j = i
    · subst hji
      rw [Function.update_self] at hj
      cases hj
      exact ⟨halloc ▸ hp, hnot⟩
    · rw [Function.update_of_ne hji] at hj
      exact h1.held j r hj
  · change Function.update s.workers i (.serving p) j = _ at hj
    change Function.update s.workers i (.serving p) k = _ at hk
    by_cases hji : j = i <;> by_cases hki : k = i
    · exact hji.trans hki.symm
    · subst hji
      rw [Function.update_self] at hj
      rw [Function.update_of_ne hki] at hk
      cases hj
      exact absurd rfl (hfree k _ hk)
    · subst hki
      rw [Function.update_self] at hk
      rw [Function.update_of_ne hji] at hj
      cases hk
      exact absurd rfl (hfree j _ hj)
    · rw [Function.update_of_ne hji] at hj
      rw [Function.update_of_ne hki] at hk
      exact h.apart j k r hj hk

/-- A worker closes its connection and frees the node. -/
theorem Represents.close (h : Represents s L a) (i : Fin n) (hw : s.workers i = .serving p) :
    ∃ s', workerCloses s i p = .ok s' ∧
      Represents s' L { a with workers := Function.update a.workers i .finishing
                               closed := a.closed ++ [s.queue.fd p] } := by
  obtain ⟨hp, hnot⟩ := h.held i p hw
  obtain ⟨q', hfree, hlists, hkept, halloc⟩ := h.lists.free hp hnot
  have h1 := h.setWorker i (x := .finishing) (y := .finishing) (by simp) rfl
  refine ⟨{ s with queue := q', workers := Function.update s.workers i .finishing
                   closed := s.closed ++ [s.queue.fd p] }, ?_, ?_⟩
  · simp only [workerCloses, Queue.node_eq hp, ok_bind, hfree, pure_eq_ok]
    rfl
  · have hothers : ∀ j r, Function.update s.workers i .finishing j = .serving r → r ≠ p := by
      intro j r hj he
      by_cases hji : j = i
      · subst hji
        rw [Function.update_self] at hj
        cases hj
      · rw [Function.update_of_ne hji] at hj
        exact hji (h.apart j i p (he ▸ hj) hw)
    refine { h1 with
      lists := hlists
      waiting := (hkept.map_fd h.allocated).trans h.waiting
      workers := fun j => ?_
      held := fun j r hj => ?_
      closed := congrArg (· ++ [s.queue.fd p]) h.closed }
    · rw [← h1.workers j]
      change (Function.update s.workers i .finishing j).map q'.fd =
        (Function.update s.workers i .finishing j).map s.queue.fd
      cases hj : Function.update s.workers i .finishing j with
      | serving r => exact congrArg _ (hkept.fd r (h1.held j r hj).1)
      | ready => rfl
      | asleep => rfl
      | woken => rfl
      | finishing => rfl
    · obtain ⟨h2, h3⟩ := h1.held j r hj
      change r ∈ q'.allocated ∧ r ∉ q'.head :: (L ++ [q'.endNode])
      rw [halloc, hkept.head, hkept.endNode]
      exact ⟨Finset.mem_erase.mpr ⟨hothers j r hj, h2⟩, h3⟩

/-- **Refinement.** An enabled event never faults, and does a step of the
specification. -/
theorem exec_refines (h : Represents s L a) {e : Event n} (he : Enabled s e) :
    ∃ s' L' a', exec cfg s e = .ok s' ∧ Step cfg (Evicts cfg s e) a a' ∧ Represents s' L' a' := by
  cases e with
  | accept c =>
      obtain ⟨hm, hc⟩ := he
      rw [h.main] at hm
      rw [h.accepted] at hc
      exact ⟨_, L, _, rfl, .accept c hm hc,
        { h with main := rfl, accepted := congrArg (· ++ [c]) h.accepted }⟩
  | arrive choice =>
      obtain ⟨c, hm⟩ := he
      have hma : a.main = .arrived c := h.main ▸ hm
      have hrun : exec cfg s (.arrive choice) = mainSection cfg s c choice := by
        simp only [exec, hm]
      rw [hrun, mainSection]
      have hreject : cfg.policy ≠ .block → Full cfg s → ∃ s' L' a',
          (.ok (reject s c) : Except Fault (State n)) = .ok s' ∧
          Step cfg (Evicts cfg s (.arrive choice)) a a' ∧ Represents s' L' a' := fun hp hfull =>
        ⟨_, L, _, rfl, .reject c hma hp (h.full_iff.mp hfull), { h with
          main := rfl
          dropped := congrArg (· ++ [c]) h.dropped
          closed := congrArg (· ++ [c]) h.closed }⟩
      by_cases hfull : Full cfg s
      · rw [if_pos hfull]
        cases hp : cfg.policy with
        | block =>
            exact ⟨_, L, _, rfl, .sleep c (.inl ⟨hma, hp⟩) (h.full_iff.mp hfull),
              { h with main := rfl }⟩
        | dropTail => exact hreject (by simp [hp]) hfull
        | dropHead =>
            by_cases hpos : 0 < s.queue.waitingQueueSize
            · simp only [if_pos hpos]
              cases L with
              | nil => simp [h.lists.size] at hpos
              | cons p L =>
                  have hq : a.waiting = s.queue.fd p :: L.map s.queue.fd := h.waiting.symm
                  obtain ⟨s₁, hrun₁, h₁⟩ := h.evictHead
                  obtain ⟨s', p', W, hrun', hW, h'⟩ := h₁.letIn c choice
                  exact ⟨s', _, _, by rw [hrun₁]; exact hrun',
                    .admitHead c _ _ W ⟨hp, hfull, hpos⟩ hma hp (h.full_iff.mp hfull) hq hW, h'⟩
            · simp only [if_neg hpos]
              exact hreject (by simp [hp]) hfull
        | random =>
            by_cases hpos : s.queue.waitingQueueSize ≤ 0
            · simp only [if_pos hpos]
              exact hreject (by simp [hp]) hfull
            · simp only [if_neg hpos]
              have hsize := h.size
              have hceil : (ourCeil (s.queue.waitingQueueSize / 4)).toNat =
                  (a.waiting.length + 3) / 4 := by
                rw [hsize, ourCeil_quarter, Int.toNat_natCast]
              have hlen : L.length = a.waiting.length := by rw [← h.waiting, List.length_map]
              rw [hceil]
              obtain ⟨s₁, L₁, victims, rest, hrun₁, hvict, hsub, hperm, h₁⟩ :=
                h.evictRandom choice.rand ((a.waiting.length + 3) / 4) (by omega)
              obtain ⟨s', p', W, hrun', hW, h'⟩ := h₁.letIn c choice
              refine ⟨s', _, _, by rw [hrun₁]; exact hrun',
                .admitRandom c victims rest W hma hp (h.full_iff.mp hfull) ?_ hvict hsub hperm hW,
                h'⟩
              intro hnil
              rw [hnil, List.length_nil] at hsize
              omega
      · rw [if_neg hfull]
        obtain ⟨s', p, W, hrun', hW, h'⟩ := h.letIn c choice
        exact ⟨s', _, _, hrun', .letIn c W (.inl hma) (fun hf => hfull (h.full_iff.mpr hf)) hW, h'⟩
  | resume choice =>
      obtain ⟨c, hm⟩ := he
      have hma : a.main = .woken c := h.main ▸ hm
      have hrun : exec cfg s (.resume choice) = mainResumes cfg s c choice := by
        simp only [exec, hm]
      rw [hrun, mainResumes]
      by_cases hfull : Full cfg s
      · rw [if_pos hfull]
        exact ⟨_, L, _, rfl, .sleep c (.inr hma) (h.full_iff.mp hfull), { h with main := rfl }⟩
      · rw [if_neg hfull]
        obtain ⟨s', p, W, hrun', hW, h'⟩ := h.letIn c choice
        exact ⟨s', _, _, hrun', .letIn c W (.inr hma) (fun hf => hfull (h.full_iff.mpr hf)) hW, h'⟩
  | wakeMain =>
      obtain ⟨c, hm⟩ := he
      exact ⟨{ s with main := .woken c }, L, _, by simp only [exec, hm],
        .wakeMain c (h.main ▸ hm), { h with main := rfl }⟩
  | wakeWorker i =>
      exact ⟨_, L, _, rfl, .wakeWorker i ((h.asleep_iff i).mp he), h.setWorker i (by simp) rfl⟩
  | take i =>
      have hwa : a.workers i = .ready ∨ a.workers i = .woken := by
        rw [← h.workers i]
        rcases he with he | he
        · exact .inl (by rw [he]; rfl)
        · exact .inr (by rw [he]; rfl)
      rw [exec, workerTakes]
      cases L with
      | nil =>
          have hle : s.queue.waitingQueueSize ≤ 0 := by rw [h.lists.size]; rfl
          rw [if_pos hle]
          exact ⟨_, [], _, rfl, .sleepWorker i hwa h.waiting.symm, h.setWorker i (by simp) rfl⟩
      | cons p L =>
          have hpos : ¬s.queue.waitingQueueSize ≤ 0 := by
            rw [h.lists.size, List.length_cons]
            omega
          obtain ⟨q', hrun, hlists, hkept, halloc⟩ := h.lists.dequeue
          have hp : p ∈ q'.allocated := halloc ▸ h.allocated p (by simp)
          have hfd : (q'.nodes p).fd = s.queue.fd p := hkept.fd p (h.allocated p (by simp))
          have h' := h.take i he hlists hkept halloc
          rw [if_neg hpos]
          refine ⟨_, L, _, ?_, .take i _ _ _ hwa h.waiting.symm rfl, h'.signalFull cfg⟩
          simp only [hrun, ok_bind, Queue.node_eq hp, hfd, pure_eq_ok]
  | close i =>
      obtain ⟨p, hw⟩ := he
      obtain ⟨s', hrun, h'⟩ := h.close i hw
      have hwa : a.workers i = .serving (s.queue.fd p) := by
        rw [← h.workers i, hw]
        rfl
      exact ⟨s', L, _, by simp only [exec, hw, hrun], .close i _ hwa, h'⟩
  | finish i =>
      have hwa : a.workers i = .finishing := by
        rw [← h.workers i, he]
        rfl
      have h1 := h.setWorker i (x := .ready) (y := .ready) (by simp) rfl
      have h2 : Represents { s with runningThreads := s.runningThreads - 1
                                    workers := Function.update s.workers i .ready } L
          { a with running := a.running - 1, workers := Function.update a.workers i .ready } :=
        { h1 with running := congrArg (· - 1) h.running }
      exact ⟨_, L, _, rfl, .finish i _ hwa rfl, h2.signalFull cfg⟩

end Refinement

end Specification

end OsAllHw.Server
