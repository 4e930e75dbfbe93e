import OsAllHw.Server.Queue

/-!
# `server.c`: main and the workers

The steps are the critical sections under `m1`; `pthread_cond_wait` ends one
and being woken starts another. The main thread accepts a connection, then
enters its section; a worker is about to lock `m1`, or sleeps on
`buffer_empty`, or was woken, or serves a request, or has closed the
connection and is about to lock `m1` again.

Connections are known by their descriptor; `accept` gives a new one each
time. The lists at the end of the state record what happened: no code reads
them.
-/

namespace OsAllHw.Server

open Lib

/-- `sched_alg`. -/
inductive Policy where
  | block
  | dropTail
  | dropHead
  | random
  deriving DecidableEq

/-- The command line. -/
structure Config where
  policy : Policy
  threadNum : Nat
  queueSize : Int

inductive MainState where
  /-- In or before `Accept`. -/
  | accepting
  /-- About to lock `m1`. -/
  | arrived (connfd : Int)
  /-- In `pthread_cond_wait(&buffer_full, &m1)`. -/
  | blocked (connfd : Int)
  /-- Woken there, `m1` not yet re-acquired. -/
  | woken (connfd : Int)
  deriving DecidableEq

/-- A worker; it knows its request by a node, or (in the specification) by
the connection. -/
inductive WorkerState (ρ : Type) where
  /-- About to lock `m1` at the top of the loop. -/
  | ready
  /-- In `pthread_cond_wait(&buffer_empty, &m1)`. -/
  | asleep
  /-- Woken there, `m1` not yet re-acquired. -/
  | woken
  /-- In `requestHandle`. -/
  | serving (curReq : ρ)
  /-- The connection is closed, `running_threads` not yet decremented. -/
  | finishing
  deriving DecidableEq

instance {ρ : Type} : (w : WorkerState ρ) → Decidable (∃ r, w = .serving r)
  | .serving r => .isTrue ⟨r, rfl⟩
  | .ready => .isFalse (by simp)
  | .asleep => .isFalse (by simp)
  | .woken => .isFalse (by simp)
  | .finishing => .isFalse (by simp)

structure State (n : Nat) where
  queue : Queue
  runningThreads : Int
  main : MainState
  workers : Fin n → WorkerState Nat
  accepted : List Int
  /-- Requests that workers took off the queue. -/
  dispatched : List Int
  /-- Requests that main turned away or took off the queue. -/
  dropped : List Int
  /-- Every call of `Close` on a connection. -/
  closed : List Int

/-- `pthread_cond_signal` on `buffer_empty`: which of the workers that wait
are woken, at least one if there is one. -/
structure Waker (n : Nat) where
  wake : Finset (Fin n) → Finset (Fin n)
  subset : ∀ S, wake S ⊆ S
  nonempty : ∀ S, S.Nonempty → (wake S).Nonempty

/-- What is left open in one run of main's section. -/
structure Choice (n : Nat) where
  malloc : Allocator
  waker : Waker n
  /-- The values of `rand()`. -/
  rand : Nat → Nat

inductive Event (n : Nat) where
  | accept (connfd : Int)
  /-- Main locks `m1`, with a new connection. -/
  | arrive (choice : Choice n)
  /-- Main re-acquires `m1` in `pthread_cond_wait`. -/
  | resume (choice : Choice n)
  /-- Main wakes though nobody signalled. -/
  | wakeMain
  | wakeWorker (i : Fin n)
  /-- Worker `i` locks or re-acquires `m1` and looks at the queue. -/
  | take (i : Fin n)
  /-- Worker `i` is done with its request and closes the connection. -/
  | close (i : Fin n)
  /-- Worker `i` locks `m1` again. -/
  | finish (i : Fin n)

/-- `our_ceil`; `(int)num` truncates. -/
def ourCeil (num : ℚ) : Int :=
  let inum := num.num.tdiv num.den
  if num = inum then inum else inum + 1

section Sections

variable {n : Nat}

/-- `queue->waiting_queue_size + running_threads >= queue_size`. -/
def Full (cfg : Config) (s : State n) : Prop :=
  cfg.queueSize ≤ s.queue.waitingQueueSize + s.runningThreads

instance (cfg : Config) (s : State n) : Decidable (Full cfg s) := by
  unfold Full; infer_instance

def sleepers (s : State n) : Finset (Fin n) := Finset.univ.filter fun i => s.workers i = .asleep

/-- `pthread_cond_signal(&buffer_empty)`. -/
def signalEmpty (s : State n) (waker : Waker n) : State n :=
  { s with workers := fun i => if i ∈ waker.wake (sleepers s) then .woken else s.workers i }

/-- `pthread_cond_signal(&buffer_full)`, sent if there is room. -/
def signalFull (cfg : Config) (s : State n) : State n :=
  if Full cfg s then s
  else match s.main with
    | .blocked connfd => { s with main := .woken connfd }
    | _ => s

theorem signalFull_workers (cfg : Config) (s : State n) :
    (signalFull cfg s).workers = s.workers := by
  unfold signalFull
  split
  · rfl
  · split <;> rfl

/-- The end of main's section: `enqueue` and the signal. -/
def letIn (s : State n) (connfd : Int) (choice : Choice n) : Except Fault (State n) := do
  let queue ← enqueue s.queue choice.malloc connfd
  return signalEmpty { s with queue := queue, main := .accepting } choice.waker

/-- Unlock and `Close(connfd)`. -/
def reject (s : State n) (connfd : Int) : State n :=
  { s with
    main := .accepting
    dropped := s.dropped ++ [connfd]
    closed := s.closed ++ [connfd] }

/-- `DROP_HEAD` on a queue that is not empty: the node is freed, its
connection is not closed. -/
def evictHead (s : State n) : Except Fault (State n) := do
  let (nodeToDelete, queue) ← dequeue s.queue
  let fd := (← queue.node nodeToDelete).fd
  let queue ← queue.free nodeToDelete
  return { s with queue := queue, dropped := s.dropped ++ [fd] }

/-- The `for` loop of `RANDOM`; `i` counts the rounds from the end. -/
def evictRandom (rand : Nat → Nat) : Nat → State n → Except Fault (State n)
  | 0, s => .ok s
  | i + 1, s => do
      let index := rand i % s.queue.waitingQueueSize.toNat
      let (fdToClose, queue) ← randomDrop s.queue index
      evictRandom rand i
        { s with
          queue := queue
          dropped := s.dropped ++ [fdToClose]
          closed := s.closed ++ [fdToClose] }

/-- Main's critical section. -/
def mainSection (cfg : Config) (s : State n) (connfd : Int) (choice : Choice n) :
    Except Fault (State n) :=
  if Full cfg s then
    match cfg.policy with
    | .block => .ok { s with main := .blocked connfd }
    | .dropTail => .ok (reject s connfd)
    | .dropHead =>
        if 0 < s.queue.waitingQueueSize then do
          let s ← evictHead s
          letIn s connfd choice
        else .ok (reject s connfd)
    | .random =>
        if s.queue.waitingQueueSize ≤ 0 then .ok (reject s connfd)
        else do
          let size := ourCeil (s.queue.waitingQueueSize / 4)
          let s ← evictRandom choice.rand size.toNat s
          letIn s connfd choice
  else letIn s connfd choice

/-- After `pthread_cond_wait`, which only `BLOCK` reaches: the test of the
`while` again. -/
def mainResumes (cfg : Config) (s : State n) (connfd : Int) (choice : Choice n) :
    Except Fault (State n) :=
  if Full cfg s then .ok { s with main := .blocked connfd } else letIn s connfd choice

/-- A worker's first critical section. -/
def workerTakes (cfg : Config) (s : State n) (i : Fin n) : Except Fault (State n) :=
  if s.queue.waitingQueueSize ≤ 0 then
    .ok { s with workers := Function.update s.workers i .asleep }
  else do
    let (curReq, queue) ← dequeue s.queue
    let fd := (← queue.node curReq).fd
    return signalFull cfg
      { s with
        queue := queue
        runningThreads := s.runningThreads + 1
        workers := Function.update s.workers i (.serving curReq)
        dispatched := s.dispatched ++ [fd] }

/-- `Close(cur_req->fd)` and `free(cur_req)`. -/
def workerCloses (s : State n) (i : Fin n) (curReq : Nat) : Except Fault (State n) := do
  let fd := (← s.queue.node curReq).fd
  let queue ← s.queue.free curReq
  return { s with
    queue := queue
    workers := Function.update s.workers i .finishing
    closed := s.closed ++ [fd] }

/-- A worker's second critical section. -/
def workerFinishes (cfg : Config) (s : State n) (i : Fin n) : State n :=
  signalFull cfg
    { s with
      runningThreads := s.runningThreads - 1
      workers := Function.update s.workers i .ready }

/-- What an enabled event does. -/
def exec (cfg : Config) (s : State n) : Event n → Except Fault (State n)
  | .accept connfd =>
      .ok { s with main := .arrived connfd, accepted := s.accepted ++ [connfd] }
  | .arrive choice =>
      match s.main with
      | .arrived connfd => mainSection cfg s connfd choice
      | _ => .ok s
  | .resume choice =>
      match s.main with
      | .woken connfd => mainResumes cfg s connfd choice
      | _ => .ok s
  | .wakeMain =>
      match s.main with
      | .blocked connfd => .ok { s with main := .woken connfd }
      | _ => .ok s
  | .wakeWorker i => .ok { s with workers := Function.update s.workers i .woken }
  | .take i => workerTakes cfg s i
  | .close i =>
      match s.workers i with
      | .serving curReq => workerCloses s i curReq
      | _ => .ok s
  | .finish i => .ok (workerFinishes cfg s i)

/-- The thread of the event is where the event starts, and `accept` gives a
descriptor it never gave before. -/
def Enabled (s : State n) : Event n → Prop
  | .accept connfd => s.main = .accepting ∧ connfd ∉ s.accepted
  | .arrive _ => ∃ connfd, s.main = .arrived connfd
  | .resume _ => ∃ connfd, s.main = .woken connfd
  | .wakeMain => ∃ connfd, s.main = .blocked connfd
  | .wakeWorker i => s.workers i = .asleep
  | .take i => s.workers i = .ready ∨ s.workers i = .woken
  | .close i => ∃ curReq, s.workers i = .serving curReq
  | .finish i => s.workers i = .finishing

instance : (m : MainState) → Decidable (∃ c, m = .arrived c)
  | .arrived c => .isTrue ⟨c, rfl⟩
  | .accepting => .isFalse (by simp)
  | .blocked _ => .isFalse (by simp)
  | .woken _ => .isFalse (by simp)

instance : (m : MainState) → Decidable (∃ c, m = .blocked c)
  | .blocked c => .isTrue ⟨c, rfl⟩
  | .accepting => .isFalse (by simp)
  | .arrived _ => .isFalse (by simp)
  | .woken _ => .isFalse (by simp)

instance : (m : MainState) → Decidable (∃ c, m = .woken c)
  | .woken c => .isTrue ⟨c, rfl⟩
  | .accepting => .isFalse (by simp)
  | .arrived _ => .isFalse (by simp)
  | .blocked _ => .isFalse (by simp)

instance (s : State n) : (e : Event n) → Decidable (Enabled s e)
  | .accept _ => inferInstanceAs (Decidable (_ ∧ _))
  | .arrive _ => inferInstanceAs (Decidable (∃ c, s.main = .arrived c))
  | .resume _ => inferInstanceAs (Decidable (∃ c, s.main = .woken c))
  | .wakeMain => inferInstanceAs (Decidable (∃ c, s.main = .blocked c))
  | .wakeWorker i => inferInstanceAs (Decidable (s.workers i = .asleep))
  | .take i => inferInstanceAs (Decidable (s.workers i = .ready ∨ s.workers i = .woken))
  | .close i => inferInstanceAs (Decidable (∃ r, s.workers i = .serving r))
  | .finish i => inferInstanceAs (Decidable (s.workers i = .finishing))

end Sections

/-- The server after `createQueue`, before any thread ran. -/
def State.start (cfg : Config) (malloc : Allocator) : Except Fault (State cfg.threadNum) := do
  let queue ← createQueue malloc cfg.queueSize
  return { queue := queue, runningThreads := 0, main := .accepting, workers := fun _ => .ready,
           accepted := [], dispatched := [], dropped := [], closed := [] }

/-- A run of the server, any interleaving of the threads' sections. -/
def run (cfg : Config) (malloc : Allocator) (es : List (Event cfg.threadNum)) :
    Except Fault (State cfg.threadNum) :=
  State.start cfg malloc >>= fun s => runFrom (exec cfg) s es

/-- Every event of a run meets `P` in the state it is made in. -/
def Throughout (cfg : Config) (malloc : Allocator)
    (P : State cfg.threadNum → Event cfg.threadNum → Prop) (es : List (Event cfg.threadNum)) :
    Prop :=
  match State.start cfg malloc with
  | .ok s => Along (exec cfg) P s es
  | .error _ => True

instance (cfg : Config) (malloc : Allocator)
    (P : State cfg.threadNum → Event cfg.threadNum → Prop) [∀ s e, Decidable (P s e)]
    (es : List (Event cfg.threadNum)) : Decidable (Throughout cfg malloc P es) :=
  match h : State.start cfg malloc with
  | .ok s => decidable_of_iff (Along (exec cfg) P s es) (by rw [Throughout, h])
  | .error _ => .isTrue (by rw [Throughout, h]; trivial)

end OsAllHw.Server
