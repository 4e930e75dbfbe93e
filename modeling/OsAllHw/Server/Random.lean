import OsAllHw.Server.Capacity

/-!
# The random policy

The `for` loop of main's `RANDOM` branch draws from a queue that gets shorter
with every round, for a number of rounds computed from its first length.
-/

namespace OsAllHw.Server

open Lib

variable {n : Nat}

/-- One round of the loop, for the value `rand()` returned. -/
def evictOne (r : Nat) (s : State n) : Except Fault (State n) := do
  let index := r % s.queue.waitingQueueSize.toNat
  let (fdToClose, queue) ← randomDrop s.queue index
  return { s with
    queue := queue
    dropped := s.dropped ++ [fdToClose]
    closed := s.closed ++ [fdToClose] }

theorem evictRandom_succ (rand : Nat → Nat) (i : Nat) (s : State n) :
    evictRandom rand (i + 1) s = evictOne (rand i) s >>= evictRandom rand i := by
  rw [evictRandom, evictOne]
  cases randomDrop s.queue (rand i % s.queue.waitingQueueSize.toNat) with
  | ok x => rfl
  | error f => rfl

/-- In each of the rounds the remainder is taken by the number of waiting
requests, which is not zero, and the index is one of theirs. -/
def RoundsInRange (rand : Nat → Nat) : Nat → State n → Prop
  | 0, _ => True
  | i + 1, s =>
      (∃ L, s.queue.Lists L ∧ L ≠ [] ∧ s.queue.waitingQueueSize = L.length ∧
        rand i % s.queue.waitingQueueSize.toNat < L.length) ∧
      ∀ s', evictOne (rand i) s = .ok s' → RoundsInRange rand i s'

/-- What was evicted from the nodes `L`: `victims`, one after the other, and
`kept` is what is left. -/
structure Evicted (s s' : State n) (L victims kept : List Nat) : Prop where
  lists : s'.queue.Lists kept
  fd : ∀ p ∈ kept, s'.queue.fd p = s.queue.fd p
  perm : L.Perm (victims ++ kept)
  sublist : kept.Sublist L
  closed : s'.closed = s.closed ++ victims.map s.queue.fd
  dropped : s'.dropped = s.dropped ++ victims.map s.queue.fd

/-- **One round** on a queue that is not empty. -/
theorem evictOne_spec {s : State n} {L : List Nat} (h : s.queue.Lists L) (hne : L ≠ []) (r : Nat) :
    ∃ i, ∃ hi : i < L.length, i = r % s.queue.waitingQueueSize.toNat ∧
      ∃ s', evictOne r s = .ok s' ∧ Evicted s s' L [L[i]] (L.eraseIdx i) := by
  have hsize : s.queue.waitingQueueSize.toNat = L.length := by rw [h.size, Int.toNat_natCast]
  have hpos := List.length_pos_iff.mpr hne
  obtain ⟨i, hi⟩ : ∃ i, i = r % s.queue.waitingQueueSize.toNat := ⟨_, rfl⟩
  have hlt : i < L.length := by
    rw [hi, hsize]
    exact Nat.mod_lt _ hpos
  obtain ⟨q', hrun, hlists, hkept, -⟩ := h.randomDrop hlt
  have hsub : (L.eraseIdx i).Sublist L := List.eraseIdx_sublist L i
  refine ⟨i, hlt, hi, { s with
    queue := q', dropped := s.dropped ++ [s.queue.fd L[i]],
    closed := s.closed ++ [s.queue.fd L[i]] }, ?_, hlists, fun p hp => ?_, perm_eraseIdx hlt, hsub,
    rfl, rfl⟩
  · rw [evictOne]
    simp only [← hi, hrun, ok_bind]
    rfl
  · exact hkept.fd p (h.alloc p (by simp [hsub.subset hp]))

theorem Evicted.trans {s s₁ s₂ : State n} {L V K V' K' : List Nat} (h : Evicted s s₁ L V K)
    (h' : Evicted s₁ s₂ K V' K') : Evicted s s₂ L (V ++ V') K' where
  lists := h'.lists
  fd p hp := (h'.fd p hp).trans (h.fd p (h'.sublist.subset hp))
  perm := h.perm.trans (by rw [List.append_assoc]; exact h'.perm.append_left V)
  sublist := h'.sublist.trans h.sublist
  closed := by
    have hfds : V'.map s₁.queue.fd = V'.map s.queue.fd := List.map_congr_left fun p hp =>
      h.fd p (h'.perm.mem_iff.mpr (List.mem_append_left K' hp))
    rw [h'.closed, h.closed, hfds, List.map_append, List.append_assoc]
  dropped := by
    have hfds : V'.map s₁.queue.fd = V'.map s.queue.fd := List.map_congr_left fun p hp =>
      h.fd p (h'.perm.mem_iff.mpr (List.mem_append_left K' hp))
    rw [h'.dropped, h.dropped, hfds, List.map_append, List.append_assoc]

/-- **The loop**, for no more rounds than there are requests. -/
theorem evictRandom_spec (rand : Nat → Nat) {k : Nat} {s : State n} {L : List Nat}
    (h : s.queue.Lists L) (hk : k ≤ L.length) :
    RoundsInRange rand k s ∧ ∃ s' victims kept, evictRandom rand k s = .ok s' ∧
      victims.length = k ∧ Evicted s s' L victims kept := by
  induction k generalizing s L with
  | zero =>
      exact ⟨trivial, s, [], L, rfl, rfl, h, fun _ _ => rfl, .refl _, .refl _, by simp, by simp⟩
  | succ k ih =>
      have hne : L ≠ [] := fun he => by simp [he] at hk
      obtain ⟨i, hi, hindex, s₁, hone, hev⟩ := evictOne_spec h hne (rand k)
      have hlen : k ≤ (L.eraseIdx i).length := by
        rw [List.length_eraseIdx_of_lt hi]
        omega
      obtain ⟨hrounds, s', victims, kept, hrun, hvictims, hev'⟩ := ih hev.lists hlen
      refine ⟨⟨⟨L, h, hne, h.size, hindex ▸ hi⟩, fun s₂ hs₂ => ?_⟩, s', L[i] :: victims, kept, ?_,
        by rw [List.length_cons, hvictims], hev.trans hev'⟩
      · rw [hone] at hs₂
        cases hs₂
        exact hrounds
      · rw [evictRandom_succ, hone, ok_bind, hrun]

theorem ceil_quarter {w : Nat} (hw : w ≠ 0) : ⌈(w / 4 : ℚ)⌉₊ = (w + 3) / 4 := by
  rw [Nat.ceil_eq_iff (by omega), lt_div_iff₀ (by norm_num), div_le_iff₀ (by norm_num)]
  norm_cast
  omega

/-- **The random policy** drops a quarter of the waiting requests, rounded up,
and closes their connections; the others keep their order. -/
theorem random_drops_quarter (cfg : Config) (s : State n) (connfd : Int) (choice : Choice n)
    (L : List Nat) (hpolicy : cfg.policy = .random) (hfull : Full cfg s) (hlists : s.queue.Lists L)
    (hne : L ≠ []) :
    RoundsInRange choice.rand ⌈(L.length / 4 : ℚ)⌉₊ s ∧
      ∃ s' victims kept, mainSection cfg s connfd choice = letIn s' connfd choice ∧
        Evicted s s' L victims kept ∧ victims.Nodup ∧
        victims.length = ⌈(L.length / 4 : ℚ)⌉₊ ∧
        s'.queue.waitingQueueSize = L.length - ⌈(L.length / 4 : ℚ)⌉₊ := by
  have hpos := List.length_pos_iff.mpr hne
  rw [ceil_quarter (by omega)]
  obtain ⟨hrounds, s', victims, kept, hrun, hlen, hev⟩ :=
    evictRandom_spec choice.rand (k := (L.length + 3) / 4) hlists (by omega)
  have hnodup : L.Nodup := (List.nodup_cons.mp hlists.nodup).2.of_append_left
  have hcount := hev.perm.length_eq
  rw [List.length_append, hlen] at hcount
  refine ⟨hrounds, s', victims, kept, ?_, hev, ?_, hlen, ?_⟩
  · have hceil : (ourCeil (s.queue.waitingQueueSize / 4)).toNat = (L.length + 3) / 4 := by
      rw [hlists.size, ourCeil_quarter, Int.toNat_natCast]
    have hsize : ¬s.queue.waitingQueueSize ≤ 0 := by
      rw [hlists.size]
      omega
    simp only [mainSection, if_pos hfull, hpolicy, if_neg hsize, hceil, hrun, ok_bind]
  · exact (hev.perm.nodup_iff.mp hnodup).of_append_left
  · rw [hev.lists.size]
    omega

/-- A queue of two requests, and room for two. -/
def twoWaiting : State 1 where
  queue :=
    { nodes := fun p => if p = 1 then ⟨-1, 2, 0⟩ else if p = 2 then ⟨5, 3, 1⟩
        else if p = 3 then ⟨6, 4, 2⟩ else ⟨-1, 0, 3⟩
      allocated := {1, 2, 3, 4}
      head := 1
      endNode := 4
      queueSize := 2
      waitingQueueSize := 2 }
  runningThreads := 0
  main := .arrived 7
  workers := fun _ => .ready
  accepted := [5, 6, 7]
  dispatched := []
  dropped := []
  closed := []

theorem twoWaiting_lists : twoWaiting.queue.Lists [2, 3] where
  linked := ⟨rfl, rfl, rfl, rfl, rfl, rfl, rfl, rfl, trivial⟩
  nodup := by decide
  alloc := by decide
  null := by decide
  size := rfl

theorem random_drops_quarter_two :
    ∃ s' victims kept, mainSection ⟨.random, 1, 2⟩ twoWaiting 7 (.plain 1) =
        letIn s' 7 (.plain 1) ∧
      Evicted twoWaiting s' [2, 3] victims kept ∧ victims.Nodup ∧
      victims.length = ⌈(([2, 3] : List Nat).length / 4 : ℚ)⌉₊ ∧
      s'.queue.waitingQueueSize =
        ([2, 3] : List Nat).length - ⌈(([2, 3] : List Nat).length / 4 : ℚ)⌉₊ :=
  (random_drops_quarter ⟨.random, 1, 2⟩ twoWaiting 7 (.plain 1) [2, 3] rfl (by decide)
    twoWaiting_lists (by decide)).2

end OsAllHw.Server
