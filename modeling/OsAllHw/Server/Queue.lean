import Mathlib
import OsAllHw.Lib.Dll
import OsAllHw.Lib.Run

/-!
# The request queue

`queue.c`: a doubly linked list between two sentinels. A `QueueNode*` is an
address; which addresses are allocated is part of the state, and a read or
write through any other pointer (`NULL`, a freed node) is a fault. `Lists`
reads the queue as a list of nodes; each operation has one specification in
terms of it.

The arrival and dispatch times of a node are left out: they only feed the
statistics of `request.c`.
-/

namespace OsAllHw.Server

open Lib

inductive Fault where
  /-- A read or write through a pointer to no allocated node. -/
  | badPointer
  deriving DecidableEq

structure QueueNode where
  fd : Int
  next : Nat
  prev : Nat

structure Queue where
  nodes : Nat → QueueNode
  /-- What `malloc` gave and `free` did not take back. -/
  allocated : Finset Nat
  head : Nat
  endNode : Nat
  queueSize : Int
  waitingQueueSize : Int

/-- Where `malloc` places a node, given what is allocated: anywhere else. -/
structure Allocator where
  place : Finset Nat → Nat
  nonnull : ∀ A, place A ≠ 0
  fresh : ∀ A, place A ∉ A

/-- `ptr->…`, read. -/
def Queue.node (q : Queue) (ptr : Nat) : Except Fault QueueNode :=
  if ptr ∈ q.allocated then .ok (q.nodes ptr) else .error .badPointer

def Queue.withNext (q : Queue) (ptr v : Nat) : Queue :=
  { q with nodes := Function.update q.nodes ptr { q.nodes ptr with next := v } }

def Queue.withPrev (q : Queue) (ptr v : Nat) : Queue :=
  { q with nodes := Function.update q.nodes ptr { q.nodes ptr with prev := v } }

/-- `ptr->next = v`. -/
def Queue.setNext (q : Queue) (ptr v : Nat) : Except Fault Queue :=
  if ptr ∈ q.allocated then .ok (q.withNext ptr v) else .error .badPointer

/-- `ptr->prev = v`. -/
def Queue.setPrev (q : Queue) (ptr v : Nat) : Except Fault Queue :=
  if ptr ∈ q.allocated then .ok (q.withPrev ptr v) else .error .badPointer

/-- `free(ptr)`. -/
def Queue.free (q : Queue) (ptr : Nat) : Except Fault Queue :=
  if ptr ∈ q.allocated then .ok { q with allocated := q.allocated.erase ptr }
  else .error .badPointer

/-- `createNode`, at the address `malloc` returned. -/
def createNode (q : Queue) (newNode : Nat) (fdIn : Int) : Queue :=
  { q with
    nodes := Function.update q.nodes newNode ⟨fdIn, 0, 0⟩
    allocated := insert newNode q.allocated }

def createQueue (malloc : Allocator) (queueSize : Int) : Except Fault Queue := do
  let q : Queue := ⟨fun _ => ⟨0, 0, 0⟩, ∅, 0, 0, queueSize, 0⟩
  let head := malloc.place q.allocated
  let q := createNode { q with head := head } head (-1) -- dummy head
  let endNode := malloc.place q.allocated
  let q := createNode { q with endNode := endNode } endNode (-1) -- dummy end
  let q ← q.setNext head endNode
  q.setPrev endNode head

def enqueue (q : Queue) (malloc : Allocator) (fdIn : Int) : Except Fault Queue := do
  let newNode := malloc.place q.allocated
  let q := createNode q newNode fdIn
  let endPrev := (← q.node q.endNode).prev
  let q ← q.setPrev q.endNode newNode
  let q ← q.setNext newNode q.endNode
  let q ← q.setPrev newNode endPrev
  let q ← q.setNext endPrev newNode
  return { q with waitingQueueSize := q.waitingQueueSize + 1 }

/-- The three statements with which `dequeue` and `random_drop` take a node
out of the list. -/
def unlinkNode (q : Queue) (nodeToRemove : Nat) : Except Fault Queue := do
  let n ← q.node nodeToRemove
  let q ← q.setPrev n.next n.prev
  let n ← q.node nodeToRemove
  let q ← q.setNext n.prev n.next
  return { q with waitingQueueSize := q.waitingQueueSize - 1 }

def dequeue (q : Queue) : Except Fault (Nat × Queue) := do
  let nodeToRemove := (← q.node q.head).next
  let q ← unlinkNode q nodeToRemove
  return (nodeToRemove, q)

/-- The `for` loop of `random_drop`. -/
def walkNext (q : Queue) : Nat → Nat → Except Fault Nat
  | 0, node => .ok node
  | n + 1, node => do
      let m ← q.node node
      walkNext q n m.next

def randomDrop (q : Queue) (indexToRemove : Nat) : Except Fault (Int × Queue) := do
  let first := (← q.node q.head).next
  let nodeToRemove ← walkNext q indexToRemove first
  let q ← unlinkNode q nodeToRemove
  let fdToClose := (← q.node nodeToRemove).fd
  let q ← q.free nodeToRemove
  return (fdToClose, q)

/-! ## Reads and writes -/

section Access

variable {q : Queue} {a b v : Nat}

def Queue.next (q : Queue) (a : Nat) : Nat := (q.nodes a).next
def Queue.prev (q : Queue) (a : Nat) : Nat := (q.nodes a).prev
def Queue.fd (q : Queue) (a : Nat) : Int := (q.nodes a).fd

theorem Queue.node_eq (h : a ∈ q.allocated) : q.node a = .ok (q.nodes a) := if_pos h
theorem Queue.setNext_eq (h : a ∈ q.allocated) : q.setNext a v = .ok (q.withNext a v) := if_pos h
theorem Queue.setPrev_eq (h : a ∈ q.allocated) : q.setPrev a v = .ok (q.withPrev a v) := if_pos h

@[simp] theorem next_withNext : (q.withNext a v).next b = if b = a then v else q.next b := by
  unfold Queue.next Queue.withNext
  by_cases hb : b = a <;> simp [hb]

@[simp] theorem next_withPrev : (q.withPrev a v).next b = q.next b := by
  unfold Queue.next Queue.withPrev
  by_cases hb : b = a <;> simp [hb]

@[simp] theorem prev_withPrev : (q.withPrev a v).prev b = if b = a then v else q.prev b := by
  unfold Queue.prev Queue.withPrev
  by_cases hb : b = a <;> simp [hb]

@[simp] theorem prev_withNext : (q.withNext a v).prev b = q.prev b := by
  unfold Queue.prev Queue.withNext
  by_cases hb : b = a <;> simp [hb]

@[simp] theorem fd_withNext : (q.withNext a v).fd b = q.fd b := by
  unfold Queue.fd Queue.withNext
  by_cases hb : b = a <;> simp [hb]

@[simp] theorem fd_withPrev : (q.withPrev a v).fd b = q.fd b := by
  unfold Queue.fd Queue.withPrev
  by_cases hb : b = a <;> simp [hb]

end Access

/-! ## The queue as a list -/

/-- Between the sentinels stand the nodes `l`, both ways. -/
structure Queue.Lists (q : Queue) (l : List Nat) : Prop where
  linked : Seg q.next q.prev 0 (q.head :: (l ++ [q.endNode])) 0
  nodup : (q.head :: (l ++ [q.endNode])).Nodup
  alloc : ∀ a ∈ q.head :: (l ++ [q.endNode]), a ∈ q.allocated
  null : 0 ∉ q.allocated
  size : q.waitingQueueSize = l.length

/-- Sentinels, size limit and descriptors are as they were. -/
structure Queue.Kept (q q' : Queue) : Prop where
  head : q'.head = q.head
  endNode : q'.endNode = q.endNode
  queueSize : q'.queueSize = q.queueSize
  fd : ∀ a ∈ q.allocated, q'.fd a = q.fd a

theorem Queue.Kept.refl (q : Queue) : q.Kept q := ⟨rfl, rfl, rfl, fun _ _ => rfl⟩

section Specs

variable {q : Queue} {l l₁ l₂ : List Nat} {a : Nat}

theorem Queue.Lists.ne_zero (h : q.Lists l) {a : Nat} (ha : a ∈ q.allocated) : a ≠ 0 :=
  fun h0 => h.null (h0 ▸ ha)

/-- **`createQueue`** makes an empty queue. -/
theorem createQueue_spec (malloc : Allocator) (queueSize : Int) :
    ∃ q, createQueue malloc queueSize = .ok q ∧ q.Lists [] ∧ q.queueSize = queueSize := by
  obtain ⟨h, hh⟩ : ∃ h, h = malloc.place ∅ := ⟨_, rfl⟩
  obtain ⟨e, he⟩ : ∃ e, e = malloc.place (insert h ∅) := ⟨_, rfl⟩
  have hne : h ≠ e := fun heq => malloc.fresh (insert h ∅) (by rw [← he, ← heq]; simp)
  have hh0 : h ≠ 0 := hh ▸ malloc.nonnull _
  have he0 : e ≠ 0 := he ▸ malloc.nonnull _
  obtain ⟨q, hq⟩ : ∃ q : Queue, q = createNode { createNode
    ⟨fun _ => ⟨0, 0, 0⟩, ∅, h, 0, queueSize, 0⟩ h (-1) with endNode := e } e (-1) := ⟨_, rfl⟩
  have hmem : h ∈ q.allocated ∧ e ∈ q.allocated := by rw [hq]; simp [createNode]
  have hnodes : ∀ b, b = h ∨ b = e → q.nodes b = ⟨-1, 0, 0⟩ := by
    rw [hq]
    rintro b (rfl | rfl)
    · simp [createNode, hne]
    · simp [createNode]
  have hrun : createQueue malloc queueSize = .ok ((q.withNext h e).withPrev e h) := by
    have h1 : q.setNext h e = .ok (q.withNext h e) := Queue.setNext_eq hmem.1
    have h2 : (q.withNext h e).setPrev e h = .ok ((q.withNext h e).withPrev e h) :=
      Queue.setPrev_eq hmem.2
    rw [← h2, ← ok_bind (q.withNext h e) fun q => q.setPrev e h, ← h1, hq, he, hh]
    rfl
  refine ⟨_, hrun, ⟨?_, ?_, ?_, ?_, ?_⟩, by rw [hq]; rfl⟩
  · have hends : q.head = h ∧ q.endNode = e := by rw [hq]; exact ⟨rfl, rfl⟩
    change Seg _ _ 0 [q.head, q.endNode] 0
    rw [hends.1, hends.2]
    have hn : ∀ b, b = h ∨ b = e → q.next b = 0 ∧ q.prev b = 0 := fun b hb => by
      rw [Queue.next, Queue.prev, hnodes b hb]
      exact ⟨rfl, rfl⟩
    refine ⟨?_, ?_, ?_, ?_, trivial⟩
    · rw [prev_withPrev, if_neg hne, prev_withNext]
      exact (hn h (.inl rfl)).2
    · rw [next_withPrev, next_withNext, if_pos rfl]
      rfl
    · rw [prev_withPrev, if_pos rfl]
    · rw [next_withPrev, next_withNext, if_neg hne.symm]
      exact (hn e (.inr rfl)).1
  · rw [hq]
    refine List.nodup_cons.mpr ⟨?_, List.nodup_singleton _⟩
    simpa [createNode, Queue.withNext, Queue.withPrev] using hne
  · rw [hq]
    intro b hb
    have hb' : b = h ∨ b = e := by simpa [createNode, Queue.withNext, Queue.withPrev] using hb
    rcases hb' with rfl | rfl
    · simp [createNode, Queue.withNext, Queue.withPrev]
    · simp [createNode, Queue.withNext, Queue.withPrev]
  · rw [hq]
    simp [createNode, Queue.withNext, Queue.withPrev, hh0.symm, he0.symm]
  · rw [hq]; rfl

theorem Queue.Lists.prev_end (h : q.Lists l) :
    q.prev q.endNode = (q.head :: l).getLastD 0 := by
  have hseg : Seg q.next q.prev 0 ((q.head :: l) ++ q.endNode :: []) 0 := h.linked
  exact hseg.links.1

/-- What `unlinkNode` writes. -/
theorem unlinkNode_eq (ha : a ∈ q.allocated) (hn : q.next a ∈ q.allocated)
    (hp : q.prev a ∈ q.allocated) (hne : a ≠ q.next a) :
    ∃ q', unlinkNode q a = .ok q' ∧ q.Kept q' ∧ q'.allocated = q.allocated ∧
      q'.waitingQueueSize = q.waitingQueueSize - 1 ∧
      (∀ b, q'.next b = if b = q.prev a then q.next a else q.next b) ∧
      ∀ b, q'.prev b = if b = q.next a then q.prev a else q.prev b := by
  obtain ⟨q₁, hq₁⟩ : ∃ q₁, q₁ = q.withPrev (q.next a) (q.prev a) := ⟨_, rfl⟩
  have h1 : q.setPrev (q.nodes a).next (q.nodes a).prev = .ok q₁ := hq₁ ▸ Queue.setPrev_eq hn
  have halloc : q₁.allocated = q.allocated := by rw [hq₁]; rfl
  have hprev : (q₁.nodes a).prev = q.prev a := by
    change q₁.prev a = _
    rw [hq₁, prev_withPrev, if_neg hne]
  have hnext : (q₁.nodes a).next = q.next a := by
    change q₁.next a = _
    rw [hq₁, next_withPrev]
  have h2 : q₁.setNext (q.prev a) (q.next a) = .ok (q₁.withNext (q.prev a) (q.next a)) :=
    Queue.setNext_eq (by rw [halloc]; exact hp)
  refine ⟨{ q₁.withNext (q.prev a) (q.next a) with waitingQueueSize := q₁.waitingQueueSize - 1 },
    ?_, ?_, ?_, ?_, ?_, ?_⟩
  · rw [unlinkNode, Queue.node_eq ha, ok_bind, h1, ok_bind,
      Queue.node_eq (by rw [halloc]; exact ha), ok_bind, hprev, hnext, h2]
    rfl
  · refine ⟨by rw [hq₁]; rfl, by rw [hq₁]; rfl, by rw [hq₁]; rfl, fun b _ => ?_⟩
    change (q₁.withNext _ _).fd b = _
    rw [fd_withNext, hq₁, fd_withPrev]
  · exact halloc
  · rw [hq₁]; rfl
  · intro b
    change (q₁.withNext _ _).next b = _
    rw [next_withNext, hq₁, next_withPrev]
  · intro b
    change (q₁.withNext _ _).prev b = _
    rw [prev_withNext, hq₁, prev_withPrev]

/-- **Unlinking** a node of the list. -/
theorem Queue.Lists.unlink (h : q.Lists (l₁ ++ a :: l₂)) :
    ∃ q', unlinkNode q a = .ok q' ∧ q'.Lists (l₁ ++ l₂) ∧ q.Kept q' ∧
      q'.allocated = q.allocated := by
  have hsplit : q.head :: (l₁ ++ a :: l₂ ++ [q.endNode]) =
      (q.head :: l₁) ++ a :: (l₂ ++ [q.endNode]) := by simp
  have hseg := h.linked
  have hnodup := h.nodup
  have halloc := h.alloc
  rw [hsplit] at hseg hnodup halloc
  obtain ⟨hp, hn⟩ := hseg.links
  -- both neighbours are nodes of the list or sentinels
  have hpmem : q.prev a ∈ q.head :: l₁ := by
    rw [hp, List.getLastD_cons]
    exact List.getLastD_mem_cons
  have hnmem : q.next a ∈ l₂ ++ [q.endNode] := by
    rw [hn]
    cases l₂ <;> simp
  have hne : a ≠ q.next a := by
    intro he
    have hnot := (List.nodup_cons.mp (List.nodup_append.mp hnodup).2.1).1
    exact hnot (he ▸ hnmem)
  obtain ⟨q', hrun, hkept, halloc', hsize, hnext, hprev⟩ := unlinkNode_eq
    (halloc a (by simp))
    (halloc _ (List.mem_append_right _ (List.mem_cons_of_mem _ hnmem)))
    (halloc _ (List.mem_append_left _ hpmem)) hne
  have hrest : q'.head :: (l₁ ++ l₂ ++ [q'.endNode]) =
      (q.head :: l₁) ++ (l₂ ++ [q.endNode]) := by
    rw [hkept.head, hkept.endNode]
    simp
  have hsub : List.Sublist ((q.head :: l₁) ++ (l₂ ++ [q.endNode]))
      ((q.head :: l₁) ++ a :: (l₂ ++ [q.endNode])) :=
    List.Sublist.append_left (List.sublist_cons_self a _) _
  have h0 : 0 ∉ (q.head :: l₁) ++ a :: (l₂ ++ [q.endNode]) := fun hz => h.null (halloc 0 hz)
  refine ⟨q', hrun, ⟨?_, ?_, ?_, ?_, ?_⟩, hkept, halloc'⟩
  · rw [hrest]
    refine hseg.unlink hnodup (fun hz => h0 ?_) (fun hz => h0 (List.mem_append_left _ hz)) ?_ ?_
    · exact List.mem_append_right _ (List.mem_cons_of_mem _ hz)
    · intro b _
      rw [hnext, hp, hn]
    · intro b _
      rw [hprev, hp, hn]
  · rw [hrest]
    exact hnodup.sublist hsub
  · rw [hrest, halloc']
    exact fun b hb => halloc b (hsub.subset hb)
  · rw [halloc']
    exact h.null
  · rw [hsize, h.size]
    simp only [List.length_append, List.length_cons]
    omega

/-- What `enqueue` writes. -/
theorem enqueue_eq (malloc : Allocator) (fdIn : Int) (h : q.Lists l)
    (ha : a = malloc.place q.allocated) :
    ∃ q', enqueue q malloc fdIn = .ok q' ∧ q.Kept q' ∧ q'.allocated = insert a q.allocated ∧
      q'.fd a = fdIn ∧ q'.waitingQueueSize = q.waitingQueueSize + 1 ∧
      (∀ b, b ≠ a → q'.next b = if b = q.prev q.endNode then a else q.next b) ∧
      (∀ b, b ≠ a → q'.prev b = if b = q.endNode then a else q.prev b) ∧
      q'.next a = q.endNode ∧ q'.prev a = q.prev q.endNode := by
  have hfresh : a ∉ q.allocated := ha ▸ malloc.fresh q.allocated
  have hend : q.endNode ∈ q.allocated := h.alloc _ (by simp)
  have hlast : q.prev q.endNode ∈ q.allocated := by
    rw [h.prev_end, List.getLastD_cons]
    refine h.alloc _ ?_
    rw [← List.cons_append]
    exact List.mem_append_left _ List.getLastD_mem_cons
  have hae : a ≠ q.endNode := fun he => hfresh (he ▸ hend)
  have hal : a ≠ q.prev q.endNode := fun he => hfresh (he ▸ hlast)
  obtain ⟨q₁, hq₁⟩ : ∃ q₁, q₁ = createNode q a fdIn := ⟨_, rfl⟩
  have hnode : ∀ b, b ≠ a → q₁.nodes b = q.nodes b := fun b hb => by
    rw [hq₁]
    exact Function.update_of_ne hb _ _
  have hnodea : q₁.nodes a = ⟨fdIn, 0, 0⟩ := by
    rw [hq₁]
    exact Function.update_self _ _ _
  have halloc : q₁.allocated = insert a q.allocated := by rw [hq₁]; rfl
  have hmem : ∀ b, b = a ∨ b ∈ q.allocated → b ∈ q₁.allocated := fun b hb => by
    rw [halloc]
    exact Finset.mem_insert.mpr hb
  obtain ⟨q₂, hq₂⟩ : ∃ q₂, q₂ = (((q₁.withPrev q.endNode a).withNext a q.endNode).withPrev a
    (q.prev q.endNode)).withNext (q.prev q.endNode) a := ⟨_, rfl⟩
  have halloc₂ : q₂.allocated = insert a q.allocated := by rw [hq₂]; exact halloc
  have hrun : enqueue q malloc fdIn =
      .ok { q₂ with waitingQueueSize := q₂.waitingQueueSize + 1 } := by
    have hendPrev : (q₁.nodes q.endNode).prev = q.prev q.endNode := by
      rw [hnode _ hae.symm]
      rfl
    have h1 := Queue.node_eq (hmem q.endNode (.inr hend))
    have h2 : q₁.setPrev q.endNode a = .ok (q₁.withPrev q.endNode a) :=
      Queue.setPrev_eq (hmem _ (.inr hend))
    have h3 : (q₁.withPrev q.endNode a).setNext a q.endNode =
        .ok ((q₁.withPrev q.endNode a).withNext a q.endNode) := Queue.setNext_eq (hmem _ (.inl rfl))
    have h4 : ((q₁.withPrev q.endNode a).withNext a q.endNode).setPrev a (q.prev q.endNode) =
        .ok (((q₁.withPrev q.endNode a).withNext a q.endNode).withPrev a (q.prev q.endNode)) :=
      Queue.setPrev_eq (hmem _ (.inl rfl))
    have h5 : (((q₁.withPrev q.endNode a).withNext a q.endNode).withPrev a
        (q.prev q.endNode)).setNext (q.prev q.endNode) a = .ok q₂ := by
      rw [hq₂]
      exact Queue.setNext_eq (hmem _ (.inr hlast))
    have he : q₁.endNode = q.endNode := by rw [hq₁]; rfl
    simp only [enqueue, ← ha, ← hq₁, he, h1, ok_bind, hendPrev, h2]
    have he2 : (q₁.withPrev q.endNode a).endNode = q.endNode := he
    simp only [he2, h3, ok_bind, h4, h5, pure_eq_ok]
  refine ⟨_, hrun, ⟨?_, ?_, ?_, ?_⟩, halloc₂, ?_, ?_, ?_, ?_, ?_, ?_⟩
  · rw [hq₂, hq₁]; rfl
  · rw [hq₂, hq₁]; rfl
  · rw [hq₂, hq₁]; rfl
  · intro b hb
    change q₂.fd b = _
    rw [hq₂, fd_withNext, fd_withPrev, fd_withNext, fd_withPrev]
    exact congrArg QueueNode.fd (hnode b fun hba => hfresh (hba ▸ hb))
  · change q₂.fd a = _
    rw [hq₂, fd_withNext, fd_withPrev, fd_withNext, fd_withPrev]
    exact congrArg QueueNode.fd hnodea
  · rw [hq₂, hq₁]; rfl
  · intro b hb
    change q₂.next b = _
    rw [hq₂, next_withNext, next_withPrev, next_withNext, next_withPrev, if_neg hb]
    exact if_congr Iff.rfl rfl (congrArg QueueNode.next (hnode b hb))
  · intro b hb
    change q₂.prev b = _
    rw [hq₂, prev_withNext, prev_withPrev, prev_withNext, prev_withPrev, if_neg hb]
    exact if_congr Iff.rfl rfl (congrArg QueueNode.prev (hnode b hb))
  · change q₂.next a = _
    rw [hq₂, next_withNext, next_withPrev, next_withNext, if_neg hal, if_pos rfl]
  · change q₂.prev a = _
    rw [hq₂, prev_withNext, prev_withPrev, if_pos rfl]

/-- **`enqueue`** appends a node. -/
theorem Queue.Lists.enqueue (malloc : Allocator) (fdIn : Int) (h : q.Lists l) :
    ∃ q' a, Server.enqueue q malloc fdIn = .ok q' ∧ a ∉ q.allocated ∧ q'.Lists (l ++ [a]) ∧
      q.Kept q' ∧ q'.allocated = insert a q.allocated ∧ q'.fd a = fdIn := by
  obtain ⟨q', hrun, hkept, halloc, hfd, hsize, hnext, hprev, hna, hpa⟩ :=
    enqueue_eq malloc fdIn h rfl
  have hfresh := malloc.fresh q.allocated
  have hnot : malloc.place q.allocated ∉ q.head :: (l ++ [q.endNode]) :=
    fun hm => hfresh (h.alloc _ hm)
  have hshape : q'.head :: (l ++ [malloc.place q.allocated] ++ [q'.endNode]) =
      (q.head :: l) ++ malloc.place q.allocated :: [q.endNode] := by
    rw [hkept.head, hkept.endNode]
    simp
  have hlast := h.prev_end
  have h0 : 0 ∉ q.head :: (l ++ [q.endNode]) := fun hz => h.null (h.alloc 0 hz)
  have hperm : ((q.head :: l) ++ malloc.place q.allocated :: [q.endNode]).Perm
      (malloc.place q.allocated :: ((q.head :: l) ++ [q.endNode])) := List.perm_middle
  refine ⟨q', _, hrun, hfresh, ⟨?_, ?_, ?_, ?_, ?_⟩, hkept, halloc, hfd⟩
  · rw [hshape]
    refine Seg.insert h.nodup hnot (fun hz => h0 ?_) (fun hz => h0 ?_) ?_ ?_ h.linked
    · exact List.mem_cons_of_mem _ (List.mem_append_right _ hz)
    · exact List.mem_append_left [q.endNode] hz
    · intro b _
      by_cases hb : b = malloc.place q.allocated
      · rw [if_pos hb, hb, hna]
        rfl
      · rw [if_neg hb, hnext b hb, hlast]
    · intro b _
      by_cases hb : b = malloc.place q.allocated
      · rw [if_pos hb, hb, hpa, hlast]
      · rw [if_neg hb, hprev b hb]
        rfl
  · rw [hshape]
    exact hperm.nodup_iff.mpr (List.nodup_cons.mpr ⟨hnot, h.nodup⟩)
  · rw [hshape, halloc]
    intro b hb
    rcases List.mem_cons.mp (hperm.mem_iff.mp hb) with rfl | hb
    · exact Finset.mem_insert_self _ _
    · exact Finset.mem_insert_of_mem (h.alloc b hb)
  · rw [halloc, Finset.mem_insert]
    exact fun hz => hz.elim (fun he => malloc.nonnull _ he.symm) h.null
  · rw [hsize, h.size]
    simp

/-- **`dequeue`** takes the first node. -/
theorem Queue.Lists.dequeue (h : q.Lists (a :: l)) :
    ∃ q', Server.dequeue q = .ok (a, q') ∧ q'.Lists l ∧ q.Kept q' ∧
      q'.allocated = q.allocated := by
  obtain ⟨q', hrun, hlists, hkept, halloc⟩ :=
    Queue.Lists.unlink (show q.Lists ([] ++ a :: l) from h)
  have hfirst : (q.nodes q.head).next = a := h.linked.2.1
  have hhead : q.node q.head = .ok (q.nodes q.head) := Queue.node_eq (h.alloc _ (by simp))
  refine ⟨q', ?_, hlists, hkept, halloc⟩
  simp only [Server.dequeue, hhead, ok_bind, hfirst, hrun, pure_eq_ok]

/-- On an empty queue `dequeue` would take the end sentinel and follow its
null `next`. -/
theorem Queue.Lists.dequeue_nil (h : q.Lists []) : Server.dequeue q = .error .badPointer := by
  have hend : q.endNode ∈ q.allocated := h.alloc _ (by simp)
  have hfirst : (q.nodes q.head).next = q.endNode := h.linked.2.1
  have hnull : (q.nodes q.endNode).next = 0 := h.linked.2.2.2.1
  have hhead : q.node q.head = .ok (q.nodes q.head) := Queue.node_eq (h.alloc _ (by simp))
  have hset : ∀ v, q.setPrev 0 v = .error .badPointer := fun v => if_neg h.null
  simp only [Server.dequeue, hhead, ok_bind, hfirst, unlinkNode, Queue.node_eq hend, hnull, hset,
    error_bind]

/-- The walk of `random_drop` reaches the node at its index. -/
theorem walkNext_eq {p r i : Nat} (hi : i < l.length) (h : Seg q.next q.prev p l r)
    (halloc : ∀ b ∈ l, b ∈ q.allocated) : walkNext q i (l.headD r) = .ok l[i] := by
  induction l generalizing p i with
  | nil => exact absurd hi (Nat.not_lt_zero i)
  | cons b l ih =>
      obtain ⟨-, hn, hrest⟩ := h
      cases i with
      | zero => rfl
      | succ i =>
          have hstep : walkNext q (i + 1) b = walkNext q i (q.next b) := by
            rw [walkNext, Queue.node_eq (halloc b (by simp))]
            rfl
          rw [List.headD_cons, hstep, hn]
          exact ih (Nat.lt_of_succ_lt_succ hi) hrest fun c hc => halloc c (by simp [hc])

/-- **`random_drop`** takes the node at its index out and frees it. -/
theorem Queue.Lists.randomDrop {i : Nat} (h : q.Lists l) (hi : i < l.length) :
    ∃ q', Server.randomDrop q i = .ok (q.fd l[i], q') ∧ q'.Lists (l.eraseIdx i) ∧ q.Kept q' ∧
      q'.allocated = q.allocated.erase l[i] := by
  obtain ⟨l₁, a, l₂, rfl, rfl⟩ : ∃ l₁ a l₂, l = l₁ ++ a :: l₂ ∧ l₁.length = i :=
    ⟨l.take i, l[i], l.drop (i + 1), by simp, by simp [hi.le]⟩
  have hget : (l₁ ++ a :: l₂)[l₁.length] = a := by simp
  have herase : (l₁ ++ a :: l₂).eraseIdx l₁.length = l₁ ++ l₂ := by
    rw [List.eraseIdx_append_of_length_le le_rfl]
    simp
  rw [hget, herase]
  obtain ⟨q', hrun, hlists, hkept, halloc⟩ := h.unlink
  have ha : a ∈ q.allocated := h.alloc a (by simp)
  have hfirst : (q.nodes q.head).next = (l₁ ++ a :: l₂ ++ [q.endNode]).headD 0 := h.linked.2.1
  have hwalk : walkNext q l₁.length ((l₁ ++ a :: l₂ ++ [q.endNode]).headD 0) = .ok a := by
    have := walkNext_eq (i := l₁.length) (by simp) h.linked.2.2
      fun b hb => h.alloc b (List.mem_cons_of_mem _ hb)
    rw [this]
    simp
  have ha' : a ∈ q'.allocated := halloc ▸ ha
  have hfd : (q'.nodes a).fd = q.fd a := hkept.fd a ha
  have hnot : a ∉ q'.head :: (l₁ ++ l₂ ++ [q'.endNode]) := by
    have hnodup := h.nodup
    rw [hkept.head, hkept.endNode]
    have hperm : (q.head :: (l₁ ++ a :: l₂ ++ [q.endNode])).Perm
        (a :: q.head :: (l₁ ++ l₂ ++ [q.endNode])) := by
      rw [List.append_assoc, List.cons_append, List.append_assoc]
      exact (List.perm_middle.cons _).trans (.swap _ _ _)
    exact (List.nodup_cons.mp (hperm.nodup_iff.mp hnodup)).1
  refine ⟨{ q' with allocated := q'.allocated.erase a }, ?_, ?_, ?_, by rw [halloc]⟩
  · have hhead : q.node q.head = .ok (q.nodes q.head) := Queue.node_eq (h.alloc _ (by simp))
    have hfree : q'.free a = .ok { q' with allocated := q'.allocated.erase a } := if_pos ha'
    simp only [Server.randomDrop, hhead, ok_bind, hfirst, hwalk, hrun, Queue.node_eq ha', hfd,
      hfree, pure_eq_ok]
  · refine ⟨hlists.linked, hlists.nodup, ?_, ?_, hlists.size⟩
    · intro b hb
      exact Finset.mem_erase.mpr ⟨fun he => hnot (he ▸ hb), hlists.alloc b hb⟩
    · exact fun hz => hlists.null (Finset.mem_of_mem_erase hz)
  · exact ⟨hkept.head, hkept.endNode, hkept.queueSize, hkept.fd⟩

/-- Freeing a node that is not listed. -/
theorem Queue.Lists.free (h : q.Lists l) (ha : a ∈ q.allocated)
    (hnot : a ∉ q.head :: (l ++ [q.endNode])) :
    ∃ q', q.free a = .ok q' ∧ q'.Lists l ∧ q.Kept q' ∧ q'.allocated = q.allocated.erase a := by
  refine ⟨_, if_pos ha, ⟨h.linked, h.nodup, fun b hb => ?_, ?_, h.size⟩,
    ⟨rfl, rfl, rfl, fun _ _ => rfl⟩, rfl⟩
  · exact Finset.mem_erase.mpr ⟨fun he => hnot (he ▸ hb), h.alloc b hb⟩
  · exact fun hz => h.null (Finset.mem_of_mem_erase hz)

end Specs

end OsAllHw.Server
