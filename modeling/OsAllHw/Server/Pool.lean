import OsAllHw.Server.Connections
import OsAllHw.Server.Replies

/-!
# The thread pool

The whole server: the sections of `Model` under `m1`, the section under `m2`
in which a thread takes its number, and `requestHandle` between a thread's two
sections. A call of `requestHandle` touches only its connection and the
counters of its thread, so it is one event, at its end.
-/

namespace OsAllHw.Server

open Lib Segel

/-! ## The state -/

/-- What one call of `requestHandle` meets: the files, the client, the memory
it happens on, and the times of the node. -/
structure Exchange where
  site : Site
  rounds : Nat
  rp : RioT
  source : Source Char
  buf : Text
  hdrbuf : Text
  method : Text
  uri : Text
  answers : List Answer
  errno : Errno
  req : Times

def Exchange.run (x : Exchange) (stats : Stats) : Option (Except Undefined Handled) :=
  Wire.requestHandle x.site x.rounds x.rp x.source x.buf x.hdrbuf x.method x.uri
    ⟨[], x.answers, x.errno⟩ x.req stats

/-- What the request line asks for. -/
def Exchange.response (x : Exchange) : Option Response :=
  (requestHandle x.site.stat (requestLine x.source.stream x.buf x.method x.uri).1
    (requestLine x.source.stream x.buf x.method x.uri).2).toOption

/-- A request that was answered. -/
structure Served (n : Nat) where
  thread : Fin n
  connfd : Int
  exchange : Exchange
  /-- What was written on the connection. -/
  sent : Text
  /-- The counters after it. -/
  stats : Stats

/-- The server with its threads. No code reads `served`. -/
structure Pool (n : Nat) where
  server : State n
  countId : Nat
  /-- The thread's `Stats`, once it has its number. -/
  stats : Fin n → Option Stats
  /-- `requestHandle` has returned for the request in hand. -/
  answered : Fin n → Bool
  served : List (Served n)

inductive PoolEvent (n : Nat) where
  /-- The section under `m2`, and `init_stats`. -/
  | start (i : Fin n)
  /-- A section under `m1`, or what stands between. -/
  | critical (e : Event n)
  /-- `requestHandle` returns, or ends the process. -/
  | handle (i : Fin n) (x : Exchange)

inductive Stop where
  | fault (f : Fault)
  | exit
  | undefined (u : Undefined)
  deriving DecidableEq

/-- The sections are not what has failed. -/
def Stop.ByHandler (stop : Stop) : Prop := ∀ f, stop ≠ .fault f

section Events

variable {n : Nat}

/-- A worker that goes for a request has none that was answered. -/
def Event.clears (e : Event n) (answered : Fin n → Bool) : Fin n → Bool :=
  match e with
  | .take i => Function.update answered i false
  | _ => answered

/-- `requestHandle(cur_req, stats)` in thread `i`. -/
def Pool.handle (p : Pool n) (i : Fin n) (x : Exchange) (stats : Stats) (curReq : Nat) :
    Except Stop (Pool n) :=
  match p.server.queue.node curReq, x.run stats with
  | .ok node, some (.ok o) =>
      if o.alive then
        .ok { p with
          stats := Function.update p.stats i (some o.stats)
          answered := Function.update p.answered i true
          served := p.served ++ [⟨i, node.fd, x, o.fd.written, o.stats⟩] }
      else .error .exit
  | .ok _, some (.error u) => .error (.undefined u)
  | .error f, _ => .error (.fault f)
  | _, none => .ok p

def poolExec (cfg : Config) (p : Pool n) : PoolEvent n → Except Stop (Pool n)
  | .start i =>
      if p.countId < intMax then
        .ok { p with
          countId := p.countId + 1
          stats := Function.update p.stats i (some (initStats p.countId)) }
      else .error (.undefined .counter)
  | .critical e =>
      match exec cfg p.server e with
      | .ok server => .ok { p with server := server, answered := e.clears p.answered }
      | .error f => .error (.fault f)
  | .handle i x =>
      match p.server.workers i, p.stats i with
      | .serving curReq, some stats => p.handle i x stats curReq
      | _, _ => .ok p

/-- What a thread has done before its sections under `m1`. -/
def Event.Due (p : Pool n) : Event n → Prop
  | .take i => p.stats i ≠ none
  | .close i => p.answered i = true
  | _ => True

/-- A thread has its number before it goes on, handles a request that it has
and has not handled, and closes the connection after that. -/
def PoolEnabled (p : Pool n) : PoolEvent n → Prop
  | .start i => p.stats i = none
  | .critical e => Enabled p.server e ∧ e.Due p
  | .handle i x => (∃ curReq, p.server.workers i = .serving curReq) ∧ p.answered i = false ∧
      ((p.stats i).bind x.run).isSome = true

instance (p : Pool n) : (e : Event n) → Decidable (e.Due p)
  | .take i => inferInstanceAs (Decidable (p.stats i ≠ none))
  | .close i => inferInstanceAs (Decidable (p.answered i = true))
  | .accept _ => .isTrue trivial
  | .arrive _ => .isTrue trivial
  | .resume _ => .isTrue trivial
  | .wakeMain => .isTrue trivial
  | .wakeWorker _ => .isTrue trivial
  | .finish _ => .isTrue trivial

instance (p : Pool n) : (e : PoolEvent n) → Decidable (PoolEnabled p e)
  | .start i => inferInstanceAs (Decidable (p.stats i = none))
  | .critical e => inferInstanceAs (Decidable (Enabled p.server e ∧ e.Due p))
  | .handle i _ =>
      inferInstanceAs (Decidable ((∃ r, p.server.workers i = .serving r) ∧ _ ∧ _))

end Events

/-- The pool after `createQueue`. -/
def Pool.init {n : Nat} (s : State n) : Pool n :=
  { server := s, countId := 0, stats := fun _ => none, answered := fun _ => false, served := [] }

/-- A run of the pool, any interleaving. -/
def poolRun (cfg : Config) (malloc : Allocator) (es : List (PoolEvent cfg.threadNum)) :
    Except Stop (Pool cfg.threadNum) :=
  match State.start cfg malloc with
  | .ok s => runFrom (poolExec cfg) (.init s) es
  | .error f => .error (.fault f)

/-- Every event of a run is enabled where it is made. -/
def PoolRuns (cfg : Config) (malloc : Allocator) (es : List (PoolEvent cfg.threadNum)) : Prop :=
  match State.start cfg malloc with
  | .ok s => Along (poolExec cfg) PoolEnabled (.init s) es
  | .error _ => True

instance (cfg : Config) (malloc : Allocator) (es : List (PoolEvent cfg.threadNum)) :
    Decidable (PoolRuns cfg malloc es) :=
  match h : State.start cfg malloc with
  | .ok s => decidable_of_iff (Along (poolExec cfg) PoolEnabled (.init s) es)
      (by rw [PoolRuns, h])
  | .error _ => .isTrue (by rw [PoolRuns, h]; trivial)

/-! ## The counters -/

/-- The counters of a thread that has answered these requests. -/
def tally (threadId : Nat) (rs : List (Option Response)) : Stats where
  threadId := threadId
  threadCount := rs.length
  threadStatic := rs.countP fun r => r.any fun r => r matches .serveStatic _ _
  threadDynamic := rs.countP fun r => r.any fun r => r matches .serveDynamic _ _

theorem tally_append {fd : Sink Char} {req : Times} {site : Site} {threadId : Nat}
    {rs : List (Option Response)} {r : Response} {o : Handled}
    (h : respond site fd req (tally threadId rs).begun r = .ok o) :
    o.stats = tally threadId (rs ++ [some r]) := by
  rw [respond_stats fd req _ h]
  cases r with
  | error cause errnum shortmsg longmsg => simp [tally, Stats.begun]
  | serveStatic filename filesize => simp [tally, Stats.begun]
  | serveDynamic filename cgiargs => simp [tally, Stats.begun]

section Counters

variable {n : Nat}

/-- What thread `i` has answered. -/
def Pool.log (p : Pool n) (i : Fin n) : List (Served n) :=
  p.served.filter fun e => decide (e.thread = i)

def Served.response (e : Served n) : Option Response := e.exchange.response

/-- **What the counters say**: the threads have different numbers, and each
has counted what it has answered, then and now. -/
structure Pool.Tallied (p : Pool n) : Prop where
  fresh : ∀ i stats, p.stats i = some stats → stats.threadId < p.countId
  apart : ∀ i j stats stats', p.stats i = some stats → p.stats j = some stats' →
    stats.threadId = stats'.threadId → i = j
  silent : ∀ i, p.stats i = none → p.log i = []
  current : ∀ i stats, p.stats i = some stats →
    stats = tally stats.threadId ((p.log i).map Served.response)
  each : ∀ i stats, p.stats i = some stats → ∀ before e after, p.log i = before ++ e :: after →
    e.stats = tally stats.threadId ((before ++ [e]).map Served.response)

theorem Pool.Tallied.init (s : State n) : (Pool.init s).Tallied :=
  ⟨nofun, nofun, fun _ _ => rfl, nofun, nofun⟩

/-- Nothing but the sections changes. -/
theorem Pool.Tallied.congr {p p' : Pool n} (h : p.Tallied) (h1 : p'.countId = p.countId)
    (h2 : p'.stats = p.stats) (h3 : p'.served = p.served) : p'.Tallied := by
  have hlog : p'.log = p.log := by
    funext i
    rw [Pool.log, Pool.log, h3]
  obtain ⟨hfresh, hapart, hsilent, hcurrent, heach⟩ := h
  exact ⟨by rwa [h1, h2], by rwa [h2], by rwa [h2, hlog], by rwa [h2, hlog], by rwa [h2, hlog]⟩

/-- A thread takes its number. -/
theorem Pool.Tallied.start {p p' : Pool n} (h : p.Tallied) {i : Fin n} (hi : p.stats i = none)
    (h1 : p'.countId = p.countId + 1)
    (h2 : p'.stats = Function.update p.stats i (some (initStats p.countId)))
    (h3 : p'.served = p.served) : p'.Tallied := by
  have hlog : p'.log = p.log := by
    funext j
    rw [Pool.log, Pool.log, h3]
  have hcases (j : Fin n) (stats : Stats) (hj : p'.stats j = some stats) :
      j = i ∧ stats = initStats p.countId ∨ j ≠ i ∧ p.stats j = some stats := by
    rw [h2] at hj
    by_cases hji : j = i
    · subst hji
      rw [Function.update_self] at hj
      exact .inl ⟨rfl, (Option.some.inj hj).symm⟩
    · rw [Function.update_of_ne hji] at hj
      exact .inr ⟨hji, hj⟩
  refine ⟨?_, ?_, ?_, ?_, ?_⟩
  · intro j stats hj
    obtain ⟨-, rfl⟩ | ⟨-, hj⟩ := hcases j stats hj
    · rw [h1]
      exact Nat.lt_succ_self _
    · rw [h1]
      exact Nat.lt_succ_of_lt (h.fresh j stats hj)
  · intro j k stats stats' hj hk hid
    obtain ⟨rfl, rfl⟩ | ⟨-, hj⟩ := hcases j stats hj
    · obtain ⟨rfl, -⟩ | ⟨-, hk⟩ := hcases k stats' hk
      · rfl
      · exact absurd hid (h.fresh k stats' hk).ne'
    · obtain ⟨rfl, rfl⟩ | ⟨-, hk⟩ := hcases k stats' hk
      · exact absurd hid (h.fresh j stats hj).ne
      · exact h.apart j k stats stats' hj hk hid
  · intro j hj
    have hji : j ≠ i := by
      rintro rfl
      rw [h2, Function.update_self] at hj
      cases hj
    rw [h2, Function.update_of_ne hji] at hj
    rw [hlog]
    exact h.silent j hj
  · intro j stats hj
    obtain ⟨rfl, rfl⟩ | ⟨-, hj⟩ := hcases j stats hj
    · rw [hlog, h.silent j hi]
      rfl
    · rw [hlog]
      exact h.current j stats hj
  · intro j stats hj before e after hsplit
    rw [hlog] at hsplit
    obtain ⟨rfl, rfl⟩ | ⟨-, hj⟩ := hcases j stats hj
    · rw [h.silent j hi] at hsplit
      simp at hsplit
    · exact h.each j stats hj before e after hsplit

/-- A call that returns has answered the request line. -/
theorem Exchange.run_alive {x : Exchange} {stats : Stats} {o : Handled}
    (h : x.run stats = some (.ok o)) (halive : o.alive = true) :
    ∃ r, requestHandle x.site.stat (requestLine x.source.stream x.buf x.method x.uri).1
        (requestLine x.source.stream x.buf x.method x.uri).2 = .ok r ∧ x.response = some r ∧
      respond x.site ⟨[], x.answers, x.errno⟩ x.req stats.begun r = .ok o := by
  obtain ⟨r, hr, ho⟩ := Wire.requestHandle_alive h halive
  refine ⟨r, hr, ?_, ho⟩
  rw [Exchange.response, hr]
  rfl

theorem log_append {p p' : Pool n} {e : Served n} (h : p'.served = p.served ++ [e]) (j : Fin n) :
    p'.log j = if e.thread = j then p.log j ++ [e] else p.log j := by
  rw [Pool.log, Pool.log, h, List.filter_append]
  by_cases hj : e.thread = j
  · simp [hj]
  · simp [hj]

/-- The last of a list, or one before it. -/
theorem append_singleton_cases {α : Type} {l before after : List α} {a b : α}
    (h : l ++ [a] = before ++ b :: after) :
    (before = l ∧ b = a ∧ after = []) ∨ ∃ after', l = before ++ b :: after' := by
  induction after using List.reverseRecOn with
  | nil =>
      obtain ⟨hbefore, hlast⟩ := List.append_inj' h rfl
      exact .inl ⟨hbefore.symm, (List.cons.inj hlast).1.symm, rfl⟩
  | append_singleton after c =>
      rw [← List.cons_append, ← List.append_assoc] at h
      exact .inr ⟨after, (List.append_inj' h rfl).1⟩

/-- A thread has answered. -/
theorem Pool.Tallied.handle {p p' : Pool n} (h : p.Tallied) {i : Fin n} {x : Exchange}
    {stats : Stats} {connfd : Int} {o : Handled} (hi : p.stats i = some stats)
    (hrun : x.run stats = some (.ok o)) (halive : o.alive = true) (h1 : p'.countId = p.countId)
    (h2 : p'.stats = Function.update p.stats i (some o.stats))
    (h3 : p'.served = p.served ++ [⟨i, connfd, x, o.fd.written, o.stats⟩]) : p'.Tallied := by
  obtain ⟨r, -, hr, ho⟩ := Exchange.run_alive hrun halive
  have hstats : o.stats =
      tally stats.threadId ((p.log i).map Served.response ++ [x.response]) := by
    rw [h.current i stats hi] at ho
    rw [hr]
    exact tally_append ho
  have hid : o.stats.threadId = stats.threadId := by
    rw [hstats]
    rfl
  have hlog := log_append h3
  have hcases (j : Fin n) (stats' : Stats) (hj : p'.stats j = some stats') :
      j = i ∧ stats' = o.stats ∨ j ≠ i ∧ p.stats j = some stats' := by
    rw [h2] at hj
    by_cases hji : j = i
    · subst hji
      rw [Function.update_self] at hj
      exact .inl ⟨rfl, (Option.some.inj hj).symm⟩
    · rw [Function.update_of_ne hji] at hj
      exact .inr ⟨hji, hj⟩
  -- the number of a thread is what it was
  have hold (j : Fin n) (stats' : Stats) (hj : p'.stats j = some stats') :
      ∃ stats'', p.stats j = some stats'' ∧ stats''.threadId = stats'.threadId := by
    obtain ⟨rfl, rfl⟩ | ⟨-, hj⟩ := hcases j stats' hj
    · exact ⟨stats, hi, hid.symm⟩
    · exact ⟨stats', hj, rfl⟩
  refine ⟨?_, ?_, ?_, ?_, ?_⟩
  · intro j stats' hj
    obtain ⟨stats'', hj, hsame⟩ := hold j stats' hj
    rw [h1, ← hsame]
    exact h.fresh j stats'' hj
  · intro j k sj sk hj hk heq
    obtain ⟨sj', hj, hsame⟩ := hold j sj hj
    obtain ⟨sk', hk, hsame'⟩ := hold k sk hk
    exact h.apart j k sj' sk' hj hk (by rw [hsame, hsame', heq])
  · intro j hj
    have hji : i ≠ j := by
      rintro rfl
      rw [h2, Function.update_self] at hj
      cases hj
    rw [h2, Function.update_of_ne hji.symm] at hj
    rw [hlog, if_neg hji]
    exact h.silent j hj
  · intro j stats' hj
    obtain ⟨rfl, rfl⟩ | ⟨hji, hj⟩ := hcases j stats' hj
    · rw [hlog, if_pos rfl, List.map_append, hid]
      exact hstats
    · rw [hlog, if_neg (Ne.symm hji)]
      exact h.current j stats' hj
  · intro j stats' hj before e after hsplit
    obtain ⟨rfl, rfl⟩ | ⟨hji, hj⟩ := hcases j stats' hj
    · rw [hlog, if_pos rfl] at hsplit
      rw [hid]
      obtain ⟨rfl, rfl, -⟩ | ⟨after', hsplit⟩ := append_singleton_cases hsplit
      · rw [List.map_append]
        exact hstats
      · exact h.each j stats hi before e after' hsplit
    · rw [hlog, if_neg (Ne.symm hji)] at hsplit
      exact h.each j stats' hj before e after hsplit

/-- What is in the log is what was written, and the counters after it. -/
def Pool.Sent (p : Pool n) : Prop :=
  ∀ e ∈ p.served, ∃ stats o, e.exchange.run stats = some (.ok o) ∧ o.alive = true ∧
    o.fd.written = e.sent ∧ o.stats = e.stats

/-- A number and a count that no other entry has. -/
def Pool.Apart (p : Pool n) : Prop :=
  (p.served.map fun e => (e.stats.threadId, e.stats.threadCount)).Nodup

/-- Each entry has the number of its thread, and a count that the thread has
reached. -/
theorem Pool.Tallied.known {p : Pool n} (h : p.Tallied) {e : Served n} (he : e ∈ p.served) :
    ∃ stats, p.stats e.thread = some stats ∧ e.stats.threadId = stats.threadId ∧
      e.stats.threadCount ≤ stats.threadCount := by
  have hmem : e ∈ p.log e.thread := List.mem_filter.mpr ⟨he, decide_eq_true rfl⟩
  obtain ⟨before, after, hsplit⟩ := List.append_of_mem hmem
  cases hstats : p.stats e.thread with
  | none =>
      rw [h.silent _ hstats] at hmem
      cases hmem
  | some stats =>
      have heach := h.each _ stats hstats before e after hsplit
      have hcurrent := congrArg Stats.threadCount (h.current _ stats hstats)
      refine ⟨stats, rfl, by rw [heach]; rfl, ?_⟩
      rw [hcurrent, heach, hsplit]
      simp [tally]

/-- What an enabled event does to the parts of the pool. -/
theorem poolExec_cases {cfg : Config} {p p' : Pool cfg.threadNum} {e : PoolEvent cfg.threadNum}
    (he : PoolEnabled p e) (h : poolExec cfg p e = .ok p') :
    (p'.countId = p.countId ∧ p'.stats = p.stats ∧ p'.served = p.served) ∨
    (∃ i, p.stats i = none ∧ p'.countId = p.countId + 1 ∧
      p'.stats = Function.update p.stats i (some (initStats p.countId)) ∧
      p'.served = p.served) ∨
    ∃ i x stats connfd o, p.stats i = some stats ∧ x.run stats = some (.ok o) ∧ o.alive = true ∧
      p'.countId = p.countId ∧ p'.stats = Function.update p.stats i (some o.stats) ∧
      p'.served = p.served ++ [⟨i, connfd, x, o.fd.written, o.stats⟩] := by
  cases e with
  | start i =>
      rw [poolExec] at h
      split at h
      · cases h
        exact .inr (.inl ⟨i, he, rfl, rfl, rfl⟩)
      · cases h
  | critical e =>
      rw [poolExec] at h
      split at h
      · cases h
        exact .inl ⟨rfl, rfl, rfl⟩
      · cases h
  | handle i x =>
      obtain ⟨⟨curReq, hserving⟩, -, hsome⟩ := he
      obtain ⟨o, hbind⟩ := Option.isSome_iff_exists.mp hsome
      obtain ⟨stats, hstats, ho⟩ := Option.bind_eq_some_iff.mp hbind
      simp only [poolExec, hserving, hstats, Pool.handle, ho] at h
      cases hnode : p.server.queue.node curReq with
      | error f =>
          rw [hnode] at h
          cases h
      | ok node =>
          rw [hnode] at h
          cases o with
          | error u => cases h
          | ok o =>
              cases halive : o.alive with
              | false =>
                  simp only [halive, Bool.false_eq_true, if_false] at h
                  cases h
              | true =>
                  simp only [halive, if_true] at h
                  cases h
                  exact .inr (.inr ⟨i, x, stats, node.fd, o, hstats, ho, halive, rfl, rfl, rfl⟩)

/-- The counters, the log and its numbers, at once. -/
structure Pool.Good (p : Pool n) : Prop where
  tallied : p.Tallied
  sent : p.Sent
  apart : p.Apart

/-- **One event** keeps the counters right. -/
theorem Pool.Good.step {cfg : Config} {p p' : Pool cfg.threadNum} {e : PoolEvent cfg.threadNum}
    (hp : p.Good) (he : PoolEnabled p e) (h : poolExec cfg p e = .ok p') : p'.Good := by
  obtain ⟨h1, h2, h3⟩ | ⟨i, hi, h1, h2, h3⟩ |
    ⟨i, x, stats, connfd, o, hi, hrun, halive, h1, h2, h3⟩ := poolExec_cases he h
  · refine ⟨hp.tallied.congr h1 h2 h3, ?_, ?_⟩
    · rw [Pool.Sent, h3]
      exact hp.sent
    · rw [Pool.Apart, h3]
      exact hp.apart
  · refine ⟨hp.tallied.start hi h1 h2 h3, ?_, ?_⟩
    · rw [Pool.Sent, h3]
      exact hp.sent
    · rw [Pool.Apart, h3]
      exact hp.apart
  · have htallied := hp.tallied.handle hi hrun halive h1 h2 h3
    refine ⟨htallied, ?_, ?_⟩
    · intro entry hentry
      rw [h3, List.mem_append, List.mem_singleton] at hentry
      obtain hentry | rfl := hentry
      · exact hp.sent entry hentry
      · exact ⟨stats, o, hrun, halive, rfl, rfl⟩
    · -- the new count is one that the thread had not reached
      have hcount : o.stats.threadId = stats.threadId ∧
          o.stats.threadCount = stats.threadCount + 1 := by
        obtain ⟨r, -, -, ho⟩ := Exchange.run_alive hrun halive
        have hcurrent := hp.tallied.current i stats hi
        rw [hcurrent] at ho
        rw [tally_append ho, hcurrent]
        simp [tally]
      rw [Pool.Apart, h3, List.map_append]
      refine List.Nodup.append hp.apart (List.nodup_singleton _) ?_
      intro pair hpair hnew
      obtain ⟨entry, hentry, rfl⟩ := List.mem_map.mp hpair
      rw [List.map_singleton, List.mem_singleton, Prod.mk.injEq] at hnew
      obtain ⟨stats', hstats', hid, hle⟩ := hp.tallied.known hentry
      have hthread : entry.thread = i :=
        hp.tallied.apart _ _ _ _ hstats' hi (by rw [← hid, hnew.1, hcount.1])
      rw [hthread, hi] at hstats'
      cases hstats'
      have hreached : entry.stats.threadCount = o.stats.threadCount := hnew.2
      omega

theorem Pool.Good.init (s : State n) : (Pool.init s).Good := ⟨.init s, nofun, List.nodup_nil⟩

end Counters

/-! ## Requests in hand -/

section InHand

variable {n : Nat} {cfg : Config} {lost : Prop}

/-- **What a step does to the requests in hand**: a worker takes one, or lets
go of one, or neither happens. -/
theorem Step.inHand {a a' : Spec n} (h : Step cfg lost a a') :
    (a'.dispatched = a.dispatched ∧
        ∀ i c, a'.workers i = .serving c ↔ a.workers i = .serving c) ∨
    (∃ i c, (∀ d, a.workers i ≠ .serving d) ∧ a'.dispatched = a.dispatched ++ [c] ∧
        a'.workers = Function.update a.workers i (.serving c)) ∨
    ∃ i c, a.workers i = .serving c ∧ a'.dispatched = a.dispatched ∧
        a'.workers = Function.update a.workers i .finishing := by
  have hupdate {w : Fin n → WorkerState Int} {i : Fin n} {x : WorkerState Int}
      (hi : ∀ c, w i ≠ .serving c) (hx : ∀ c, x ≠ .serving c) (j : Fin n) (c : Int) :
      Function.update w i x j = .serving c ↔ w j = .serving c := by
    by_cases hj : j = i
    · subst hj
      rw [Function.update_self]
      exact iff_of_false (hx c) (hi c)
    · rw [Function.update_of_ne hj]
  have hwake {w : Fin n → WorkerState Int} {W : Finset (Fin n)} (hW : Wakes w W) (j : Fin n)
      (c : Int) : wakeAll w W j = .serving c ↔ w j = .serving c := by
    rw [wakeAll]
    split
    · rename_i hj
      rw [hW.asleep j hj]
      simp
    · exact Iff.rfl
  have hfree {w : WorkerState Int} (hw : w = .ready ∨ w = .woken) (c : Int) :
      w ≠ .serving c := by
    rintro rfl
    simp at hw
  cases h with
  | letIn c W hm hroom hW => exact .inl ⟨rfl, hwake hW⟩
  | admitHead c v rest W hl hm hp hfull hq hW => exact .inl ⟨rfl, hwake hW⟩
  | admitRandom c victims rest W hm hp hfull hq hlen hsub hperm hW => exact .inl ⟨rfl, hwake hW⟩
  | wakeWorker i hw =>
      exact .inl ⟨rfl, hupdate (fun c => by simp [hw]) fun c => by simp⟩
  | sleepWorker i hw hq => exact .inl ⟨rfl, hupdate (hfree hw) fun c => by simp⟩
  | take i c rest a' hw hq ha =>
      subst ha
      exact .inr (.inl ⟨i, c, hfree hw, rfl, rfl⟩)
  | close i c hw => exact .inr (.inr ⟨i, c, hw, rfl, rfl⟩)
  | finish i a' hw ha =>
      subst ha
      exact .inl ⟨rfl, hupdate (fun c => by simp [hw]) fun c => by simp⟩
  | _ => exact .inl ⟨rfl, fun i c => Iff.rfl⟩

/-- The same workers serve the same nodes. -/
def SameHands (s s' : State n) : Prop :=
  ∀ i curReq, s'.workers i = .serving curReq ↔ s.workers i = .serving curReq

theorem SameHands.of_eq {s s' : State n} (h : s'.workers = s.workers) : SameHands s s' := by
  intro i curReq
  rw [h]

theorem sameHands_signalEmpty (s : State n) (waker : Waker n) :
    SameHands s (signalEmpty s waker) := by
  intro i curReq
  simp only [signalEmpty]
  split
  · rename_i hi
    have hasleep := (Finset.mem_filter.mp (waker.subset _ hi)).2
    rw [hasleep]
    simp
  · exact Iff.rfl

theorem sameHands_letIn {s s' : State n} {connfd : Int} {choice : Choice n}
    (h : letIn s connfd choice = .ok s') : SameHands s s' := by
  obtain ⟨queue, -, h⟩ := bind_eq_ok.mp h
  cases h
  exact sameHands_signalEmpty _ choice.waker

theorem evictHead_workers {s s' : State n} (h : evictHead s = .ok s') :
    s'.workers = s.workers := by
  obtain ⟨⟨nodeToDelete, queue⟩, -, h⟩ := bind_eq_ok.mp h
  obtain ⟨node, -, h⟩ := bind_eq_ok.mp h
  obtain ⟨queue', -, h⟩ := bind_eq_ok.mp h
  cases h
  rfl

theorem evictRandom_workers (rand : Nat → Nat) (k : Nat) {s s' : State n}
    (h : evictRandom rand k s = .ok s') : s'.workers = s.workers := by
  induction k generalizing s with
  | zero =>
      cases h
      rfl
  | succ k ih =>
      obtain ⟨⟨fdToClose, queue⟩, -, h⟩ := bind_eq_ok.mp h
      exact (ih (s := { s with
        queue := queue, dropped := s.dropped ++ [fdToClose], closed := s.closed ++ [fdToClose] })
        h).trans rfl

theorem sameHands_mainSection {s s' : State n} {connfd : Int} {choice : Choice n}
    (h : mainSection cfg s connfd choice = .ok s') : SameHands s s' := by
  rw [mainSection] at h
  split at h
  · split at h
    · cases h
      exact .of_eq rfl
    · cases h
      exact .of_eq rfl
    · split at h
      · obtain ⟨s₁, hs₁, h⟩ := bind_eq_ok.mp h
        intro i curReq
        rw [sameHands_letIn h, evictHead_workers hs₁]
      · cases h
        exact .of_eq rfl
    · split at h
      · cases h
        exact .of_eq rfl
      · obtain ⟨s₁, hs₁, h⟩ := bind_eq_ok.mp h
        intro i curReq
        rw [sameHands_letIn h, evictRandom_workers _ _ hs₁]
  · exact sameHands_letIn h

/-- **Which worker an enabled event is about**: only `take` puts a request
into its hand, and only `close` takes one out. -/
theorem exec_hands {s s' : State n} {e : Event n} (he : Enabled s e) (h : exec cfg s e = .ok s')
    (i : Fin n) (curReq : Nat) :
    (s'.workers i = .serving curReq → s.workers i = .serving curReq ∨ e = .take i) ∧
      (s.workers i = .serving curReq → s'.workers i = .serving curReq ∨ e = .close i) := by
  have hsame (hs : SameHands s s') :
      (s'.workers i = .serving curReq → s.workers i = .serving curReq ∨ e = .take i) ∧
        (s.workers i = .serving curReq → s'.workers i = .serving curReq ∨ e = .close i) :=
    ⟨fun hi => .inl ((hs i curReq).mp hi), fun hi => .inl ((hs i curReq).mpr hi)⟩
  -- an event about worker `j`, which then is in state `x`
  have hother {j : Fin n} {x : WorkerState Nat} (hw : s'.workers = Function.update s.workers j x)
      (hj : i = j → e = .take i ∧ (∀ r, s.workers j ≠ .serving r) ∨
        e = .close i ∧ (∀ r, x ≠ .serving r)) :
      (s'.workers i = .serving curReq → s.workers i = .serving curReq ∨ e = .take i) ∧
        (s.workers i = .serving curReq → s'.workers i = .serving curReq ∨ e = .close i) := by
    by_cases hij : i = j
    · subst hij
      rw [hw, Function.update_self]
      obtain ⟨htake, hnot⟩ | ⟨hclose, hnot⟩ := hj rfl
      · exact ⟨fun _ => .inr htake, fun hi => absurd hi (hnot curReq)⟩
      · exact ⟨fun hx => absurd hx (hnot curReq), fun _ => .inr hclose⟩
    · rw [hw, Function.update_of_ne hij]
      exact ⟨.inl, .inl⟩
  have hidle {j : Fin n} {x : WorkerState Nat} (hj : ∀ r, s.workers j ≠ .serving r)
      (hx : ∀ r, x ≠ .serving r) (hw : s'.workers = Function.update s.workers j x) :
      SameHands s s' := by
    intro k r
    rw [hw]
    by_cases hkj : k = j
    · subst hkj
      rw [Function.update_self]
      exact iff_of_false (hx r) (hj r)
    · rw [Function.update_of_ne hkj]
  cases e with
  | accept connfd =>
      cases h
      exact hsame (.of_eq rfl)
  | arrive choice =>
      obtain ⟨c, hm⟩ := he
      simp only [exec, hm] at h
      exact hsame (sameHands_mainSection h)
  | resume choice =>
      obtain ⟨c, hm⟩ := he
      simp only [exec, hm, mainResumes] at h
      split at h
      · cases h
        exact hsame (.of_eq rfl)
      · exact hsame (sameHands_letIn h)
  | wakeMain =>
      obtain ⟨c, hm⟩ := he
      simp only [exec, hm] at h
      cases h
      exact hsame (.of_eq rfl)
  | wakeWorker j =>
      cases h
      refine hsame (hidle (x := .woken) (fun r => ?_) (fun r => by simp) rfl)
      rw [show s.workers j = .asleep from he]
      simp
  | take j =>
      have hj (r : Nat) : s.workers j ≠ .serving r := by
        intro hr
        obtain he | he := (show s.workers j = .ready ∨ s.workers j = .woken from he)
        all_goals
          rw [hr] at he
          cases he
      rw [exec, workerTakes] at h
      split at h
      · cases h
        exact hsame (hidle (x := .asleep) hj (fun r => by simp) rfl)
      · obtain ⟨⟨curReq', queue⟩, -, h⟩ := bind_eq_ok.mp h
        obtain ⟨node, -, h⟩ := bind_eq_ok.mp h
        cases h
        exact hother (signalFull_workers cfg _) fun hij => .inl ⟨hij ▸ rfl, hj⟩
  | close j =>
      obtain ⟨curReq', hj⟩ := he
      simp only [exec, hj] at h
      obtain ⟨node, -, h⟩ := bind_eq_ok.mp h
      obtain ⟨queue, -, h⟩ := bind_eq_ok.mp h
      cases h
      exact hother (x := .finishing) rfl fun hij => .inr ⟨hij ▸ rfl, fun r => by simp⟩
  | finish j =>
      cases h
      refine hsame (hidle (x := .ready) (fun r => ?_) (fun r => by simp) (signalFull_workers cfg _))
      rw [show s.workers j = .finishing from he]
      simp

/-- How many workers have connection `c` in hand and have not answered it. -/
def unanswered (w : Fin n → WorkerState Int) (answered : Fin n → Bool) (c : Int) : Nat :=
  ∑ i, if w i = .serving c ∧ answered i = false then 1 else 0

theorem unanswered_congr {w w' : Fin n → WorkerState Int} {answered answered' : Fin n → Bool}
    {c : Int}
    (h : ∀ i, w' i = .serving c ∧ answered' i = false ↔ w i = .serving c ∧ answered i = false) :
    unanswered w' answered' c = unanswered w answered c :=
  Finset.sum_congr rfl fun i _ => by simp only [h i]

/-- Only worker `i` takes or lets go of `c`. -/
theorem unanswered_change (w w' : Fin n → WorkerState Int) (answered answered' : Fin n → Bool)
    (c : Int) (i : Fin n)
    (h : ∀ j, j ≠ i → (w' j = w j ∧ answered' j = answered j)) :
    unanswered w' answered' c + (if w i = .serving c ∧ answered i = false then 1 else 0) =
      unanswered w answered c + if w' i = .serving c ∧ answered' i = false then 1 else 0 := by
  have hrest : ∑ j ∈ Finset.univ.erase i,
      (if w' j = .serving c ∧ answered' j = false then 1 else 0) =
        ∑ j ∈ Finset.univ.erase i, if w j = .serving c ∧ answered j = false then 1 else 0 :=
    Finset.sum_congr rfl fun j hj => by
      obtain ⟨hw, hanswered⟩ := h j (Finset.ne_of_mem_erase hj)
      rw [hw, hanswered]
  rw [unanswered, unanswered, ← Finset.add_sum_erase _ _ (Finset.mem_univ i), hrest,
    ← Finset.add_sum_erase Finset.univ _ (Finset.mem_univ i)]
  omega

/-- The program state stands for `a`, and what was dispatched was answered or
is in hand. -/
structure Pool.Handed (cfg : Config) (p : Pool n) (L : List Nat) (a : Spec n) : Prop where
  represents : Represents p.server L a
  ordered : a.Ordered cfg
  count : ∀ c, a.dispatched.count c =
    (p.served.map Served.connfd).count c + unanswered a.workers p.answered c

theorem Represents.serving_iff {s : State n} {L : List Nat} {a : Spec n} (h : Represents s L a)
    (i : Fin n) (c : Int) :
    a.workers i = .serving c ↔ ∃ curReq, s.workers i = .serving curReq ∧ s.queue.fd curReq = c := by
  rw [← h.workers i]
  cases s.workers i <;> simp [WorkerState.map]

/-- A section of the server. -/
theorem Pool.Handed.critical {p : Pool n} {L : List Nat} {a : Spec n} (h : p.Handed cfg L a)
    {e : Event n} (he : Enabled p.server e)
    (hclose : ∀ i, e = .close i → p.answered i = true) :
    ∃ server L' a', exec cfg p.server e = .ok server ∧
      ({ p with server := server, answered := e.clears p.answered } : Pool n).Handed cfg L' a' := by
  obtain ⟨s', L', a', hrun, hstep, hrep⟩ := exec_refines h.represents he
  refine ⟨s', L', a', hrun, hrep, h.ordered.step hstep, fun c => ?_⟩
  have hhands := exec_hands he hrun
  have hkeep (j : Fin n) (hj : e ≠ .take j) : e.clears p.answered j = p.answered j := by
    cases e with
    | take i => exact Function.update_of_ne (fun hji => hj (congrArg Event.take hji.symm)) _ _
    | _ => rfl
  change a'.dispatched.count c =
    (p.served.map Served.connfd).count c + unanswered a'.workers (e.clears p.answered) c
  obtain ⟨hdisp, hsame⟩ | ⟨i, d, hfree, hdisp, hworkers⟩ | ⟨i, d, hserving, hdisp, hworkers⟩ :=
    hstep.inHand
  · rw [hdisp, h.count c]
    refine congrArg (_ + ·) (unanswered_congr fun j => ?_).symm
    rw [hsame j c]
    refine and_congr_right fun hj => ?_
    rw [hkeep j]
    -- a worker that serves does not go for another request
    rintro rfl
    obtain ⟨curReq, hcur, -⟩ := (h.represents.serving_iff j c).mp hj
    obtain hready | hready :=
      (show p.server.workers j = .ready ∨ p.server.workers j = .woken from he)
    all_goals
      rw [hcur] at hready
      cases hready
  · have htake : e = .take i := by
      obtain ⟨curReq, hcur, -⟩ := (hrep.serving_iff i d).mp (by rw [hworkers, Function.update_self])
      refine ((hhands i curReq).1 hcur).resolve_left fun hold => ?_
      exact hfree _ ((h.represents.serving_iff i _).mpr ⟨curReq, hold, rfl⟩)
    have hchange :=
      unanswered_change a.workers a'.workers p.answered (e.clears p.answered) c i fun j hj =>
        ⟨by rw [hworkers, Function.update_of_ne hj],
          hkeep j fun he => hj (by rw [htake] at he; exact (Event.take.inj he).symm)⟩
    have hcleared : e.clears p.answered i = false := by
      rw [htake]
      exact Function.update_self ..
    rw [if_neg fun hold => hfree c hold.1, hworkers, Function.update_self, hcleared] at hchange
    rw [hdisp, List.count_append, h.count c, hworkers]
    by_cases hdc : d = c
    · subst hdc
      simp only [and_self, if_true, List.count_singleton_self] at hchange ⊢
      omega
    · have hne : WorkerState.serving d ≠ .serving c := fun he => hdc (WorkerState.serving.inj he)
      simp only [hne, false_and, if_false] at hchange
      rw [List.count_singleton, if_neg (by simpa using hdc)]
      omega
  · have hanswered : p.answered i = true := by
      obtain ⟨curReq, hcur, -⟩ := (h.represents.serving_iff i d).mp hserving
      refine hclose i (((hhands i curReq).2 hcur).resolve_left fun hnew => ?_)
      have hfin := (hrep.serving_iff i _).mpr ⟨curReq, hnew, rfl⟩
      rw [hworkers, Function.update_self] at hfin
      cases hfin
    rw [hdisp, h.count c]
    refine congrArg (_ + ·) (unanswered_congr fun j => ?_).symm
    by_cases hj : j = i
    · subst hj
      rw [hworkers, Function.update_self, hanswered]
      exact iff_of_false nofun (fun h => by cases h.2)
    · rw [hworkers, Function.update_of_ne hj]
      refine and_congr_right fun hw => ?_
      rw [hkeep j]
      rintro rfl
      obtain ⟨curReq, hcur, -⟩ := (h.represents.serving_iff j c).mp hw
      obtain hready | hready :=
        (show p.server.workers j = .ready ∨ p.server.workers j = .woken from he)
      all_goals
        rw [hcur] at hready
        cases hready

/-- `requestHandle` has returned. -/
theorem Pool.Handed.handle {p p' : Pool n} {L : List Nat} {a : Spec n} (h : p.Handed cfg L a)
    {i : Fin n} {curReq : Nat} (hcur : p.server.workers i = .serving curReq)
    (hanswered : p.answered i = false) {x : Exchange} {sent : Text} {stats : Stats}
    (h1 : p'.server = p.server) (h2 : p'.answered = Function.update p.answered i true)
    (h3 : p'.served = p.served ++ [⟨i, p.server.queue.fd curReq, x, sent, stats⟩]) :
    p'.Handed cfg L a := by
  refine ⟨h1 ▸ h.represents, h.ordered, fun c => ?_⟩
  have hserving : a.workers i = .serving (p.server.queue.fd curReq) :=
    (h.represents.serving_iff i _).mpr ⟨curReq, hcur, rfl⟩
  have hchange := unanswered_change a.workers a.workers p.answered p'.answered c i fun j hj =>
    ⟨rfl, by rw [h2, Function.update_of_ne hj]⟩
  have htrue : p'.answered i = true := by rw [h2, Function.update_self]
  rw [htrue, hserving, hanswered] at hchange
  rw [h.count c, h3, List.map_append, List.count_append]
  by_cases hc : p.server.queue.fd curReq = c
  · subst hc
    simp only [true_and, if_true, Bool.true_eq_false, and_false, if_false, List.map_singleton,
      List.count_singleton_self] at hchange ⊢
    omega
  · have hne : WorkerState.serving (p.server.queue.fd curReq) ≠ .serving c :=
      fun he => hc (WorkerState.serving.inj he)
    simp only [hne, false_and, if_false, List.map_singleton, List.count_singleton,
      beq_eq_false_iff_ne.mpr hc, Bool.false_eq_true] at hchange ⊢
    omega

/-- **One event of the pool**: it keeps everything right, or a handler ends
the process. -/
theorem pool_step {p : Pool cfg.threadNum} {e : PoolEvent cfg.threadNum}
    (hp : p.Good ∧ ∃ L a, p.Handed cfg L a) (he : PoolEnabled p e) :
    Outcome (fun p' => p'.Good ∧ ∃ L a, p'.Handed cfg L a) Stop.ByHandler (poolExec cfg p e) := by
  obtain ⟨hgood, L, a, hhanded⟩ := hp
  cases e with
  | start i =>
      by_cases hcount : p.countId < intMax
      · have hexec : poolExec cfg p (.start i) =
            .ok { p with
              countId := p.countId + 1
              stats := Function.update p.stats i (some (initStats p.countId)) } := if_pos hcount
        rw [hexec]
        exact ⟨hgood.step he hexec, L, a, hhanded.represents, hhanded.ordered, hhanded.count⟩
      · have hexec : poolExec cfg p (.start i) = .error (.undefined .counter) := if_neg hcount
        rw [hexec]
        exact fun f => by simp
  | critical e =>
      have hclose (i : Fin cfg.threadNum) (hi : e = .close i) : p.answered i = true := by
        subst hi
        exact he.2
      obtain ⟨server, L', a', hrun, hhanded'⟩ := hhanded.critical he.1 hclose
      have hexec : poolExec cfg p (.critical e) =
          .ok { p with server := server, answered := e.clears p.answered } := by
        simp only [poolExec, hrun]
      rw [hexec]
      exact ⟨hgood.step he hexec, L', a', hhanded'⟩
  | handle i x =>
      have henabled := he
      obtain ⟨⟨curReq, hcur⟩, hanswered, hsome⟩ := he
      obtain ⟨o, hbind⟩ := Option.isSome_iff_exists.mp hsome
      obtain ⟨stats, hstats, ho⟩ := Option.bind_eq_some_iff.mp hbind
      have hnode := Queue.node_eq (hhanded.represents.held i curReq hcur).1
      cases o with
      | error u =>
          have hexec : poolExec cfg p (.handle i x) = .error (.undefined u) := by
            simp only [poolExec, hcur, hstats, Pool.handle, ho, hnode]
          rw [hexec]
          exact fun f => by simp
      | ok o =>
          have hexec : poolExec cfg p (.handle i x) =
              if o.alive then
                .ok { p with
                  stats := Function.update p.stats i (some o.stats)
                  answered := Function.update p.answered i true
                  served := p.served ++
                    [⟨i, p.server.queue.fd curReq, x, o.fd.written, o.stats⟩] }
              else .error .exit := by
            simp only [poolExec, hcur, hstats, Pool.handle, ho, hnode]
            rfl
          cases halive : o.alive with
          | false =>
              rw [hexec, halive]
              exact fun f => by simp
          | true =>
              rw [halive, if_pos rfl] at hexec
              rw [hexec]
              exact ⟨hgood.step henabled hexec, L, a, hhanded.handle hcur hanswered rfl rfl rfl⟩

end InHand

section Runs

variable (cfg : Config) (malloc : Allocator)

/-- **Every run of the pool** keeps everything right, or ends with the
process. -/
theorem pool_run (es : List (PoolEvent cfg.threadNum)) (h : PoolRuns cfg malloc es) :
    Outcome (fun p => p.Good ∧ ∃ L a, p.Handed cfg L a) Stop.ByHandler
      (poolRun cfg malloc es) := by
  obtain ⟨s, hstart, hrep⟩ := start_represents cfg malloc
  rw [PoolRuns, hstart] at h
  rw [poolRun, hstart]
  refine runFrom_outcome (P := PoolEnabled) (fun p e hp he => pool_step hp he) ?_ h
  refine ⟨.init s, [], .start _, hrep, ?_, fun c => ?_⟩
  · exact ⟨.nil, .refl _, by simp [Spec.start], rfl, fun _ => rfl⟩
  · simp [Spec.start, Pool.init, unanswered]

end Runs

/-! ## What the clients see -/

/-- The number of the thread and its count, as a client reads them. -/
def replyIdentity (sent : Text) : Option (Nat × Nat) := do
  let (head, _) ← readMessage '\r' '\n' sent
  let threadId ← (field "Stat-Thread-Id:: ".toList head).bind numeral
  let threadCount ← (field "Stat-Thread-Count:: ".toList head).bind numeral
  return (threadId, threadCount)

/-- A handler that returned has told the client its counters. -/
theorem replyIdentity_run {x : Exchange} {stats : Stats} {o : Handled}
    (hcompleted : ∀ r ∈ x.response, r.Completed x.site) (hrun : x.run stats = some (.ok o))
    (halive : o.alive = true) :
    replyIdentity o.fd.written = some (o.stats.threadId, o.stats.threadCount) := by
  obtain ⟨r, hr, hresponse, hrespond⟩ := Exchange.run_alive hrun halive
  obtain ⟨sent, head, body, hsent, hread, hdescribes, -⟩ :=
    respond_message (hcompleted r hresponse) hr hrespond halive
  rw [List.nil_append] at hsent
  rw [replyIdentity, hsent, hread]
  simp only [Option.bind_eq_bind, Option.bind_some, hdescribes.threadId, hdescribes.threadCount]
  rfl

/-- Every reply is in the log of one thread. -/
theorem sum_log {n : Nat} (p : Pool n) : ∑ i, (p.log i).length = p.served.length := by
  simp only [Pool.log]
  induction p.served with
  | nil => simp
  | cons e served ih =>
      have hone (i : Fin n) : ((e :: served).filter fun e => decide (e.thread = i)).length =
          (served.filter fun e => decide (e.thread = i)).length +
            if e.thread = i then 1 else 0 := by
        by_cases hi : e.thread = i <;> simp [hi]
      rw [Finset.sum_congr rfl fun i _ => hone i, Finset.sum_add_distrib, ih]
      simp

/-- **Replies are identified**: in any interleaving no two replies carry the
same thread number and count (a client reads them, if a program that was run
ends the head). Each thread has counted its replies and the files and programs
among them, and together they have counted all. -/
theorem replies_identified (cfg : Config) (malloc : Allocator)
    (es : List (PoolEvent cfg.threadNum)) (h : PoolRuns cfg malloc es) :
    Outcome (fun p =>
      (p.served.map fun e => (e.stats.threadId, e.stats.threadCount)).Nodup ∧
      (∀ e ∈ p.served, (∀ r ∈ e.response, r.Completed e.exchange.site) →
        replyIdentity e.sent = some (e.stats.threadId, e.stats.threadCount)) ∧
      (∀ i before e after, p.log i = before ++ e :: after →
        e.stats = tally e.stats.threadId ((before ++ [e]).map Served.response)) ∧
      ∑ i, ((p.stats i).map Stats.threadCount).getD 0 = p.served.length)
      Stop.ByHandler (poolRun cfg malloc es) := by
  refine (pool_run cfg malloc es h).imp ?_ fun _ hf => hf
  rintro p ⟨hgood, -⟩
  refine ⟨hgood.apart, ?_, ?_, ?_⟩
  · intro e he hcompleted
    obtain ⟨stats, o, hrun, halive, hsent, hstats⟩ := hgood.sent e he
    rw [← hsent, ← hstats]
    exact replyIdentity_run hcompleted hrun halive
  · intro i before e after hsplit
    cases hstats : p.stats i with
    | none =>
        rw [hgood.tallied.silent i hstats] at hsplit
        simp at hsplit
    | some stats =>
        have heach := hgood.tallied.each i stats hstats before e after hsplit
        rw [heach]
        rfl
  · rw [← sum_log]
    refine Finset.sum_congr rfl fun i _ => ?_
    cases hstats : p.stats i with
    | none =>
        rw [hgood.tallied.silent i hstats]
        rfl
    | some stats =>
        change stats.threadCount = _
        rw [congrArg Stats.threadCount (hgood.tallied.current i stats hstats)]
        exact List.length_map ..

/-- Two threads of three start; a request for another method comes, and thread 0
answers it. -/
def putEvents : List (PoolEvent 3) :=
  [.start 1, .start 0, .critical (.accept 4), .critical (.arrive (.plain 3)), .critical (.take 0),
    .handle 0 ⟨noSite, 0, rioZero, putInPieces, [], [], [], [], [.moves 3], .other,
      ⟨⟨5, 0⟩, ⟨5, 7⟩⟩⟩,
    .critical (.close 0)]

set_option maxRecDepth 100000 in
theorem putEvents_runs : PoolRuns ⟨.block, 3, 2⟩ .above putEvents := by decide +kernel

theorem replies_identified_put :
    Outcome (fun p => (p.served.map fun e => (e.stats.threadId, e.stats.threadCount)).Nodup)
      Stop.ByHandler (poolRun ⟨.block, 3, 2⟩ .above putEvents) :=
  (replies_identified ⟨.block, 3, 2⟩ .above putEvents putEvents_runs).imp (fun _ hp => hp.1)
    fun _ hf => hf

/-- **Each request is answered once**: whatever a worker took off the queue, it
took once, and it was answered, or is in the hand of one worker that has not
answered it yet. -/
theorem requests_answered_once (cfg : Config) (malloc : Allocator)
    (es : List (PoolEvent cfg.threadNum)) (h : PoolRuns cfg malloc es) :
    Outcome (fun p =>
      p.server.dispatched.Nodup ∧ (p.served.map Served.connfd).Nodup ∧
      (∀ e ∈ p.served, e.connfd ∈ p.server.accepted) ∧
      ∀ c, p.server.dispatched.count c = (p.served.map Served.connfd).count c +
        (Finset.univ.filter fun i => (p.server.workers i).map p.server.queue.fd = .serving c ∧
          p.answered i = false).card)
      Stop.ByHandler (poolRun cfg malloc es) := by
  refine (pool_run cfg malloc es h).imp ?_ fun _ hf => hf
  rintro p ⟨-, L, a, hhanded⟩
  have hsub : a.dispatched.Sublist a.accepted :=
    (List.sublist_append_left _ _).trans hhanded.ordered.sublist
  have hnodup := hhanded.ordered.nodup.sublist hsub
  have hle (c : Int) : (p.served.map Served.connfd).count c ≤ a.dispatched.count c := by
    rw [hhanded.count c]
    exact Nat.le_add_right ..
  refine ⟨hhanded.represents.dispatched ▸ hnodup, ?_, ?_, fun c => ?_⟩
  · exact List.nodup_iff_count_le_one.mpr fun c =>
      (hle c).trans (List.nodup_iff_count_le_one.mp hnodup c)
  · intro e he
    have hpos : 0 < (p.served.map Served.connfd).count e.connfd :=
      List.count_pos_iff.mpr (List.mem_map_of_mem he)
    rw [hhanded.represents.accepted]
    exact hsub.subset (List.count_pos_iff.mp (hpos.trans_le (hle e.connfd)))
  · rw [hhanded.represents.dispatched, hhanded.count c, Finset.card_filter, unanswered]
    refine congrArg (_ + ·) (Finset.sum_congr rfl fun i _ => ?_)
    rw [hhanded.represents.workers i]

theorem requests_answered_once_put :
    Outcome (fun p => p.server.dispatched.Nodup ∧ (p.served.map Served.connfd).Nodup)
      Stop.ByHandler (poolRun ⟨.block, 3, 2⟩ .above putEvents) := by
  refine (requests_answered_once ⟨.block, 3, 2⟩ .above putEvents putEvents_runs).imp ?_
    fun _ hf => hf
  rintro p ⟨hdispatched, hserved, -⟩
  exact ⟨hdispatched, hserved⟩

end OsAllHw.Server
