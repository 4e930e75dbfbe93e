import Mathlib
import OsAllHw.Server.Queue

/-!
# Sequences of calls on the queue

`enqueue`, `dequeue` and `random_drop` in any order, each called where
`server.c` may call it: the queue reads as a list in both directions, and the
calls do to it what their names say.
-/

namespace OsAllHw.Server

open Lib

inductive Call where
  | enqueue (malloc : Allocator) (fdIn : Int)
  | dequeue
  | randomDrop (indexToRemove : Nat)

/-- The queue after a call. -/
def Call.run (q : Queue) : Call → Except Fault Queue
  | .enqueue malloc fdIn => Server.enqueue q malloc fdIn
  | .dequeue => do
      let (_, q) ← Server.dequeue q
      return q
  | .randomDrop indexToRemove => do
      let (_, q) ← Server.randomDrop q indexToRemove
      return q

/-- There is a request to take. -/
def Call.Legal (q : Queue) : Call → Prop
  | .enqueue .. => True
  | .dequeue => 0 < q.waitingQueueSize
  | .randomDrop indexToRemove => indexToRemove < q.waitingQueueSize

instance (q : Queue) : (call : Call) → Decidable (call.Legal q)
  | .enqueue .. => .isTrue trivial
  | .dequeue => inferInstanceAs (Decidable (0 < q.waitingQueueSize))
  | .randomDrop indexToRemove =>
      inferInstanceAs (Decidable ((indexToRemove : Int) < q.waitingQueueSize))

/-- `next` leads from `head` over `l` to `end`, `prev` back, and `l` is as long
as the length kept. -/
structure Queue.IsList (q : Queue) (l : List Nat) : Prop where
  forwards : Path q.next q.head l q.endNode
  backwards : Path q.prev q.endNode l.reverse q.head
  size : q.waitingQueueSize = l.length
  nodup : (q.head :: (l ++ [q.endNode])).Nodup

/-- What a call on the list `l` returns and leaves. -/
inductive Call.Does (q : Queue) (l : List Nat) : Call → Queue → List Nat → Prop where
  | enqueue {malloc fdIn q' a} (hrun : Server.enqueue q malloc fdIn = .ok q') (hnew : a ∉ l)
      (hfd : q'.fd a = fdIn) : Does q l (.enqueue malloc fdIn) q' (l ++ [a])
  | dequeue {a rest q'} (hl : l = a :: rest) (hrun : Server.dequeue q = .ok (a, q')) :
      Does q l .dequeue q' rest
  | randomDrop {i q'} (hi : i < l.length) (hrun : Server.randomDrop q i = .ok (q.fd l[i], q')) :
      Does q l (.randomDrop i) q' (l.eraseIdx i)

section

variable {q : Queue} {l : List Nat}

theorem Queue.Lists.isList (h : q.Lists l) : q.IsList l :=
  ⟨h.linked.path_next, h.linked.path_prev, h.size, h.nodup⟩

/-- **One call.** -/
theorem Queue.Lists.call (h : q.Lists l) {call : Call} (hlegal : call.Legal q) :
    ∃ q' l', call.run q = .ok q' ∧ call.Does q l q' l' ∧ q'.Lists l' ∧ q.Kept q' := by
  cases call with
  | enqueue malloc fdIn =>
      obtain ⟨q', a, hrun, hnew, hlists, hkept, -, hfd⟩ := h.enqueue malloc fdIn
      refine ⟨q', l ++ [a], hrun, .enqueue hrun ?_ hfd, hlists, hkept⟩
      exact fun ha => hnew (h.alloc a (by simp [ha]))
  | dequeue =>
      cases l with
      | nil =>
          rw [Call.Legal, h.size] at hlegal
          cases hlegal
      | cons a rest =>
          obtain ⟨q', hrun, hlists, hkept, -⟩ := h.dequeue
          exact ⟨q', rest, by rw [Call.run, hrun]; rfl, .dequeue rfl hrun, hlists, hkept⟩
  | randomDrop i =>
      have hi : i < l.length := by
        rw [Call.Legal, h.size] at hlegal
        exact Int.ofNat_lt.mp hlegal
      obtain ⟨q', hrun, hlists, hkept, -⟩ := h.randomDrop hi
      exact ⟨q', l.eraseIdx i, by rw [Call.run, hrun]; rfl, .randomDrop hi hrun, hlists, hkept⟩

end

/-- **The queue is a list** after any calls, between the two sentinels it was
made with; and the next call appends to the list, takes and returns its first
element, or takes the element at its index and returns that element's
descriptor. -/
theorem queue_is_list (malloc : Allocator) (queueSize : Int) :
    ∃ q₀, createQueue malloc queueSize = .ok q₀ ∧ q₀.IsList [] ∧
      ∀ calls : List Call, Along Call.run Call.Legal q₀ calls →
        ∃ q l, runFrom Call.run q₀ calls = .ok q ∧ q.IsList l ∧
          q.head = q₀.head ∧ q.endNode = q₀.endNode ∧
          ∀ call : Call, call.Legal q → ∃ q' l', call.run q = .ok q' ∧ call.Does q l q' l' ∧
            q'.IsList l' ∧ ∀ a ∈ l, q'.fd a = q.fd a := by
  obtain ⟨q₀, hcreate, hlists₀, -⟩ := createQueue_spec malloc queueSize
  refine ⟨q₀, hcreate, hlists₀.isList, ?_⟩
  intro calls hlegal
  have hrun : Outcome (fun q => ∃ l, q.Lists l ∧ q.head = q₀.head ∧ q.endNode = q₀.endNode)
      (fun _ => False) (runFrom Call.run q₀ calls) := by
    refine runFrom_outcome ?_ ⟨[], hlists₀, rfl, rfl⟩ hlegal
    rintro q call ⟨l, hlists, hhead, hend⟩ hcall
    obtain ⟨q', l', hrun, -, hlists', hkept⟩ := hlists.call hcall
    rw [hrun]
    exact ⟨l', hlists', hkept.head.trans hhead, hkept.endNode.trans hend⟩
  obtain ⟨q, hq, l, hlists, hhead, hend⟩ := hrun.exists_ok
  refine ⟨q, l, hq, hlists.isList, hhead, hend, ?_⟩
  intro call hcall
  obtain ⟨q', l', hrun', hdoes, hlists', hkept⟩ := hlists.call hcall
  refine ⟨q', l', hrun', hdoes, hlists'.isList, ?_⟩
  intro a ha
  exact hkept.fd a (hlists.alloc a (by simp [ha]))

end OsAllHw.Server
