import OsAllHw.Server.Capacity

/-!
# Where the connections are

Every accepted connection is with main, on the queue, with one worker, or
closed once; `DROP_HEAD` breaks this when it evicts a waiting request, whose
node it frees without closing the connection. Requests are dispatched in the
order they were accepted, under every policy.
-/

namespace OsAllHw.Server

open Lib

/-- The connection main holds. -/
def MainState.held : MainState → List Int
  | .accepting => []
  | .arrived c => [c]
  | .blocked c => [c]
  | .woken c => [c]

@[simp] theorem MainState.held_signalled {full : Prop} [Decidable full] (m : MainState) :
    (m.signalled full).held = m.held := by
  unfold MainState.signalled
  split
  · rfl
  · cases m <;> rfl

/-! ## Places -/

section Places

variable {n : Nat} {cfg : Config} {a a' : Spec n} {c : Int}

/-- A worker serves connection `c`. -/
def WorkerState.serves (c : Int) : WorkerState Int → Nat
  | .serving d => if d = c then 1 else 0
  | _ => 0

/-- In how many places connection `c` is. -/
def Spec.places (a : Spec n) (c : Int) : Nat :=
  a.main.held.count c + a.waiting.count c + ∑ i, (a.workers i).serves c + a.closed.count c

/-- **Each connection keeps its one place** in a step that evicts nobody. -/
theorem Step.places (h : Step cfg False a a') (hI : a.places c = a.accepted.count c) :
    a'.places c = a'.accepted.count c := by
  unfold Spec.places at *
  cases h with
  | accept d hm hc =>
      rw [hm] at hI
      simp only [MainState.held, List.count_nil, List.count_append] at hI ⊢
      omega
  | sleep d hm hfull =>
      rcases hm with ⟨hm, -⟩ | hm <;> (rw [hm] at hI; exact hI)
  | reject d hm hp hfull =>
      rw [hm] at hI
      simp only [MainState.held, List.count_nil, List.count_append] at hI ⊢
      omega
  | letIn d W hm hroom hW =>
      have hsum := sum_wakeAll (WorkerState.serves c) rfl hW
      rcases hm with hm | hm <;>
      · rw [hm] at hI
        simp only [MainState.held, List.count_nil, List.count_append, hsum] at hI ⊢
        omega
  | admitHead d v rest W hl hm hp hfull hq hW => exact hl.elim
  | admitRandom d victims rest W hm hp hfull hq hlen hsub hperm hW =>
      have hsum := sum_wakeAll (WorkerState.serves c) rfl hW
      have hcount := hperm.count_eq c
      rw [hm] at hI
      simp only [MainState.held, List.count_nil, List.count_append, hsum] at hI hcount ⊢
      omega
  | wakeMain d hm =>
      rw [hm] at hI
      exact hI
  | wakeWorker i hw =>
      have hsum := sum_update (WorkerState.serves c) a.workers i .woken
      rw [hw] at hsum
      change _ + 0 = _ + 0 at hsum
      rw [← Nat.add_right_cancel hsum] at hI
      exact hI
  | sleepWorker i hw hq =>
      have hsum := sum_update (WorkerState.serves c) a.workers i .asleep
      have hidle : (a.workers i).serves c = 0 := by rcases hw with hw | hw <;> rw [hw] <;> rfl
      rw [hidle] at hsum
      change _ + 0 = _ + 0 at hsum
      rw [← Nat.add_right_cancel hsum] at hI
      exact hI
  | take i d rest a' hw hq ha =>
      subst ha
      have hsum := sum_update (WorkerState.serves c) a.workers i (.serving d)
      have hidle : (a.workers i).serves c = 0 := by rcases hw with hw | hw <;> rw [hw] <;> rfl
      rw [hidle] at hsum
      rw [hq, List.count_cons] at hI
      simp only [MainState.held_signalled, WorkerState.serves, beq_iff_eq] at hI hsum ⊢
      omega
  | close i d hw =>
      have hsum := sum_update (WorkerState.serves c) a.workers i .finishing
      rw [hw] at hsum
      change _ + (if d = c then 1 else 0) = _ + 0 at hsum
      simp only [List.count_append, List.count_singleton, beq_iff_eq] at hI ⊢
      omega
  | finish i a' hw ha =>
      subst ha
      have hsum := sum_update (WorkerState.serves c) a.workers i .ready
      rw [hw] at hsum
      change _ + 0 = _ + 0 at hsum
      rw [← Nat.add_right_cancel hsum] at hI
      simp only [MainState.held_signalled]
      exact hI

theorem Step.nodup {lost : Prop} (h : Step cfg lost a a') (hI : a.accepted.Nodup) :
    a'.accepted.Nodup := by
  cases h with
  | accept d hm hc =>
      exact List.nodup_append.mpr ⟨hI, List.nodup_singleton d, fun x hx y hy he => by
        rw [List.mem_singleton] at hy
        exact hc (hy ▸ he ▸ hx)⟩
  | take i d rest a' hw hq ha => subst ha; exact hI
  | finish i a' hw ha => subst ha; exact hI
  | _ => exact hI

end Places

/-- In how many places connection `c` is, with the nodes `L` waiting: with
main, on the queue, with workers, closed. -/
def State.places {n : Nat} (s : State n) (L : List Nat) (c : Int) : Nat :=
  s.main.held.count c + (L.map s.queue.fd).count c +
    (Finset.univ.filter fun i => (s.workers i).map s.queue.fd = .serving c).card +
    s.closed.count c

theorem Represents.places {n : Nat} {s : State n} {L : List Nat} {a : Spec n}
    (h : Represents s L a) (c : Int) : s.places L c = a.places c := by
  have hworkers : (Finset.univ.filter fun i => (s.workers i).map s.queue.fd = .serving c).card =
      ∑ i, (a.workers i).serves c := by
    rw [Finset.card_filter]
    refine Finset.sum_congr rfl fun i _ => ?_
    rw [h.workers i]
    cases a.workers i <;> simp [WorkerState.serves]
  rw [State.places, Spec.places, hworkers, h.main, h.waiting, h.closed]

/-- **Connections.** In every run in which `DROP_HEAD` evicts no waiting
request, each accepted connection is in exactly one place, once, and no other
connection is anywhere. -/
theorem connections_placed (cfg : Config) (malloc : Allocator) (es : List (Event cfg.threadNum))
    (h : Throughout cfg malloc (fun s e => Enabled s e ∧ ¬Evicts cfg s e) es) :
    ∃ s, run cfg malloc es = .ok s ∧ ∃ L, s.queue.Lists L ∧
      ∀ c, s.places L c = if c ∈ s.accepted then 1 else 0 := by
  obtain ⟨s, hrun, L, a, hrep, hplaces, hnodup⟩ := run_refines False malloc
    (fun s e he => ⟨he.1, he.2⟩)
    (I := fun a => (∀ c, a.places c = a.accepted.count c) ∧ a.accepted.Nodup)
    ⟨fun c => by simp [Spec.places, Spec.start, MainState.held, WorkerState.serves], .nil⟩
    (fun _ _ hI hs => ⟨fun c => hs.places (hI.1 c), hs.nodup hI.2⟩) h
  refine ⟨s, hrun, L, hrep.lists, fun c => ?_⟩
  rw [hrep.places, hplaces, hrep.accepted]
  split
  · rename_i hc
    exact List.count_eq_one_of_mem hnodup hc
  · rename_i hc
    exact List.count_eq_zero_of_not_mem hc

set_option maxRecDepth 100000 in
theorem connections_placed_busy : ∃ s, run ⟨.block, 2, 2⟩ .above busyEvents = .ok s ∧
    ∃ L, s.queue.Lists L ∧ ∀ c, s.places L c = if c ∈ s.accepted then 1 else 0 :=
  connections_placed ⟨.block, 2, 2⟩ .above busyEvents (by decide +kernel)

/-- The only node of a queue of length one. -/
theorem Queue.Lists.singleton {q : Queue} {L : List Nat} (h : q.Lists L)
    (h1 : q.waitingQueueSize = 1) : L = [q.next q.head] := by
  have hlen := h.size
  rw [h1] at hlen
  obtain ⟨p, rfl⟩ := List.length_eq_one_iff.mp (by exact_mod_cast hlen.symm)
  rw [h.linked.2.1]
  rfl

/-- `dh` with room for one: the second connection evicts the first. -/
def evictingEvents : List (Event 1) :=
  [.accept 4, .arrive (.plain 1), .accept 5, .arrive (.plain 1)]

set_option maxRecDepth 100000 in
/-- Connection 4 is then nowhere, and was never closed. -/
theorem evicted_connection_leaks :
    Throughout ⟨.dropHead, 1, 1⟩ .above Enabled evictingEvents ∧
    ∃ s, run ⟨.dropHead, 1, 1⟩ .above evictingEvents = .ok s ∧
      ¬∃ L, s.queue.Lists L ∧ ∀ c, s.places L c = if c ∈ s.accepted then 1 else 0 := by
  refine ⟨by decide +kernel, ?_⟩
  have hok : Outcome (fun s => 4 ∈ s.accepted ∧ s.queue.waitingQueueSize = 1 ∧
      s.places [s.queue.next s.queue.head] 4 = 0) (fun _ => False)
      (run ⟨.dropHead, 1, 1⟩ .above evictingEvents) := by decide +kernel
  obtain ⟨s, hrun, hmem, hone, hnowhere⟩ := hok.exists_ok
  refine ⟨s, hrun, ?_⟩
  rintro ⟨L, hlists, hplaces⟩
  have h4 := hplaces 4
  rw [hlists.singleton hone, hnowhere, if_pos hmem] at h4
  cases h4

/-! ## Order -/

section Order

variable {n : Nat} {cfg : Config} {lost : Prop} {a a' : Spec n}

/-- What a list loses when some of its elements are filtered out. -/
theorem filter_not_mem {l victims rest : List Int} (hnodup : l.Nodup) (hsub : rest.Sublist l)
    (hperm : l.Perm (victims ++ rest)) : l.filter (fun c => decide (c ∉ victims)) = rest := by
  obtain ⟨-, -, hdisj⟩ := List.nodup_append.mp (hperm.nodup_iff.mp hnodup)
  have hrest : rest.filter (fun c => decide (c ∉ victims)) = rest :=
    List.filter_eq_self.mpr fun c hc => decide_eq_true fun hv => hdisj c hv c hc rfl
  have hvict : victims.filter (fun c => decide (c ∉ victims)) = [] :=
    List.filter_eq_nil_iff.mpr fun c hc => by simp [hc]
  have hlen := (hperm.filter fun c => decide (c ∉ victims)).length_eq
  rw [List.filter_append, hvict, hrest, List.nil_append] at hlen
  have hsub' := hsub.filter fun c => decide (c ∉ victims)
  rw [hrest] at hsub'
  exact (hsub'.eq_of_length hlen.symm).symm

structure Spec.Ordered (cfg : Config) (a : Spec n) : Prop where
  nodup : a.accepted.Nodup
  /-- Dispatched, waiting, with main: in the order of arrival. -/
  sublist : (a.dispatched ++ (a.waiting ++ a.main.held)).Sublist a.accepted
  dropped : ∀ c ∈ a.dropped, c ∈ a.accepted
  left : a.accepted.filter (fun c => decide (c ∉ a.dispatched ∧ c ∉ a.dropped)) =
    a.waiting ++ a.main.held
  block : cfg.policy = .block → a.dispatched ++ (a.waiting ++ a.main.held) = a.accepted

/-- Nothing but the state of the workers changes. -/
theorem Spec.Ordered.congr (h : a.Ordered cfg)
    (hw : a'.waiting ++ a'.main.held = a.waiting ++ a.main.held)
    (h1 : a'.accepted = a.accepted) (h2 : a'.dispatched = a.dispatched)
    (h3 : a'.dropped = a.dropped) : a'.Ordered cfg := by
  obtain ⟨hn, hs, hd, hl, hb⟩ := h
  exact ⟨by rwa [h1], by rwa [h1, h2, hw], by rwa [h1, h3], by rwa [h1, h2, h3, hw],
    by rwa [h1, h2, hw]⟩

/-- Some of the requests that wait, or the one main holds, are dropped. -/
theorem Spec.Ordered.drop (h : a.Ordered cfg) (victims rest : List Int)
    (hp : cfg.policy ≠ .block) (hsub : rest.Sublist (a.waiting ++ a.main.held))
    (hperm : (a.waiting ++ a.main.held).Perm (victims ++ rest))
    (hw : a'.waiting ++ a'.main.held = rest)
    (h1 : a'.accepted = a.accepted) (h2 : a'.dispatched = a.dispatched)
    (h3 : a'.dropped = a.dropped ++ victims) : a'.Ordered cfg := by
  obtain ⟨hn, hs, hd, hl, -⟩ := h
  have hleft : (a.waiting ++ a.main.held).Sublist a.accepted :=
    (List.sublist_append_right _ _).trans hs
  refine ⟨by rwa [h1], ?_, ?_, ?_, fun hb => absurd hb hp⟩
  · rw [h1, h2, hw]
    exact (List.Sublist.append_left hsub _).trans hs
  · rw [h1, h3]
    intro c hc
    rcases List.mem_append.mp hc with hc | hc
    · exact hd c hc
    · exact hleft.subset (hperm.mem_iff.mpr (List.mem_append_left _ hc))
  · rw [h1, h2, h3, hw, ← filter_not_mem (hn.sublist hleft) hsub hperm, ← hl, List.filter_filter]
    refine List.filter_congr fun c _ => ?_
    simp only [List.mem_append, not_or, Bool.decide_and, decide_not]
    grind

theorem Spec.Ordered.step (h : a.Ordered cfg) (hs : Step cfg lost a a') : a'.Ordered cfg := by
  cases hs with
  | accept c hm hc =>
      obtain ⟨hn, hsub, hd, hl, hb⟩ := h
      have hdisp : c ∉ a.dispatched := fun hm => hc (hsub.subset (List.mem_append_left _ hm))
      have hdrop : c ∉ a.dropped := fun hm => hc (hd c hm)
      rw [hm] at hsub hl hb
      simp only [MainState.held, List.append_nil] at hsub hl hb
      refine ⟨?_, ?_, ?_, ?_, ?_⟩
      · exact Step.nodup (.accept c hm hc : Step cfg lost a _) hn
      · change (a.dispatched ++ (a.waiting ++ [c])).Sublist (a.accepted ++ [c])
        rw [← List.append_assoc]
        exact hsub.append (.refl _)
      · exact fun d hd' => List.mem_append_left _ (hd d hd')
      · change (a.accepted ++ [c]).filter _ = a.waiting ++ [c]
        rw [List.filter_append, hl]
        simp [hdisp, hdrop]
      · intro hp
        change a.dispatched ++ (a.waiting ++ [c]) = a.accepted ++ [c]
        rw [← List.append_assoc, hb hp]
  | sleep c hm hfull =>
      refine h.congr ?_ rfl rfl rfl
      rcases hm with ⟨hm, -⟩ | hm <;> rw [hm] <;> rfl
  | reject c hm hp hfull =>
      refine h.drop [c] a.waiting hp ?_ ?_ ?_ rfl rfl rfl
      · exact List.sublist_append_left _ _
      · rw [hm]
        exact List.perm_append_comm
      · exact List.append_nil _
  | letIn c W hm hroom hW =>
      refine h.congr ?_ rfl rfl rfl
      rcases hm with hm | hm <;> (rw [hm]; simp [MainState.held])
  | admitHead c v rest W hl hm hp hfull hq hW =>
      refine h.drop [v] (rest ++ [c]) (by simp [hp]) ?_ ?_ ?_ rfl rfl rfl
      · rw [hq, hm]
        exact List.sublist_cons_self v _
      · rw [hq, hm]
        exact .refl _
      · exact List.append_nil _
  | admitRandom c victims rest W hm hp hfull hq hlen hsub hperm hW =>
      refine h.drop victims (rest ++ [c]) (by simp [hp]) ?_ ?_ ?_ rfl rfl rfl
      · rw [hm]
        exact hsub.append (.refl _)
      · rw [hm, ← List.append_assoc]
        exact hperm.append_right _
      · exact List.append_nil _
  | wakeMain c hm =>
      refine h.congr ?_ rfl rfl rfl
      rw [hm]
      rfl
  | wakeWorker i hw => exact h.congr rfl rfl rfl rfl
  | sleepWorker i hw hq => exact h.congr rfl rfl rfl rfl
  | take i c rest a' hw hq ha =>
      subst ha
      obtain ⟨hn, hsub, hd, hl, hb⟩ := h
      rw [hq] at hsub hl hb
      have hshift : a.dispatched ++ [c] ++ (rest ++ a.main.held) =
          a.dispatched ++ (c :: rest ++ a.main.held) := by simp
      have hnodup : (c :: rest ++ a.main.held).Nodup :=
        (hn.sublist hsub).sublist (List.sublist_append_right _ _)
      refine ⟨hn, ?_, hd, ?_, fun hp => ?_⟩
      · simp only [MainState.held_signalled, hshift]
        exact hsub
      · simp only [MainState.held_signalled]
        have hfilter : (c :: rest ++ a.main.held).filter (fun d => decide (d ∉ [c])) =
            rest ++ a.main.held :=
          filter_not_mem hnodup (List.sublist_cons_self c _) (.refl _)
        rw [← hl, List.filter_filter] at hfilter
        rw [← hfilter]
        refine List.filter_congr fun d _ => ?_
        simp only [List.mem_append, List.mem_singleton, not_or, Bool.decide_and, decide_not]
        grind
      · simp only [MainState.held_signalled, hshift]
        exact hb hp
  | close i c hw => exact h.congr rfl rfl rfl rfl
  | finish i a' hw ha =>
      subst ha
      exact h.congr (by simp) rfl rfl rfl

end Order

/-- **Arrival order.** After any run the requests dispatched are a
subsequence of those accepted, each at most once, and a prefix of them under
`block`. What is neither dispatched nor dropped, in the order it was accepted,
is the waiting queue, then the connection main is about to decide on. -/
theorem arrival_order_kept (cfg : Config) (malloc : Allocator) (es : List (Event cfg.threadNum))
    (h : Throughout cfg malloc Enabled es) :
    ∃ s, run cfg malloc es = .ok s ∧ s.dispatched.Sublist s.accepted ∧ s.dispatched.Nodup ∧
      (cfg.policy = .block → s.dispatched <+: s.accepted) ∧
      ∃ L, s.queue.Lists L ∧
        s.accepted.filter (fun c => decide (c ∉ s.dispatched ∧ c ∉ s.dropped)) =
          L.map s.queue.fd ++ s.main.held := by
  obtain ⟨s, hrun, L, a, hrep, hord⟩ := run_refines True malloc
    (fun s e he => ⟨he, fun _ => trivial⟩) (I := Spec.Ordered cfg)
    ⟨.nil, .refl _, by simp [Spec.start], rfl, fun _ => rfl⟩ (fun _ _ hI hs => hI.step hs) h
  have hsub : a.dispatched.Sublist a.accepted := (List.sublist_append_left _ _).trans hord.sublist
  refine ⟨s, hrun, ?_, ?_, fun hp => ?_, L, hrep.lists, ?_⟩
  · rw [hrep.dispatched, hrep.accepted]
    exact hsub
  · rw [hrep.dispatched]
    exact hord.nodup.sublist hsub
  · rw [hrep.dispatched, hrep.accepted, ← hord.block hp]
    exact List.prefix_append _ _
  · rw [hrep.accepted, hrep.dispatched, hrep.dropped, hord.left, hrep.waiting, hrep.main]

set_option maxRecDepth 100000 in
theorem arrival_order_kept_busy : ∃ s, run ⟨.block, 2, 2⟩ .above busyEvents = .ok s ∧
    s.dispatched <+: s.accepted := by
  obtain ⟨s, hrun, -, -, hprefix, -⟩ := arrival_order_kept ⟨.block, 2, 2⟩ .above busyEvents
    (by decide +kernel)
  exact ⟨s, hrun, hprefix rfl⟩

end OsAllHw.Server
