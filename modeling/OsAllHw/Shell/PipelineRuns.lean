import OsAllHw.Shell.Plumbing
import OsAllHw.Shell.StandardFiles

/-!
# Runs of a pipeline

From the invariant of `Plumbing`: the commands run with the pipe where they
expect it and nowhere else; until `executePipeCommand` has returned some process
can go on, and it returns after a number of steps bounded by what the first
command writes; and what the second command reads is what the first one wrote.
-/

namespace OsAllHw.Shell.Pipeline

open Lib

/-! ## Somebody can go on -/

/-- A call of the shell, or a child. -/
def Goes (type : Text) (cmds : Commands) (capacity : Nat) (op : Op) (s : System) : Prop :=
  (∃ r a s', r ≠ .failed ∧ s.perform type op r = some (a, s')) ∨
    ∃ side s', s.move cmds capacity (.go side) = some s'

/-- Where the pipe is, for a child in `execute`; no child has returned. -/
def Connected (w : World) (type : Text) (s : System) : Prop :=
  ∀ side, ∀ p ∈ s.child side, p.phase ≠ .returned ∧
    (p.phase = .running [] → s.file = w.files ∧ ∀ fd, fileOf p.fds fd =
      if fd = side.stdio type then some (side.end s.file) else fileOf w.fds fd)

/-- What holds before every call of the shell. -/
structure Healthy (w : World) (type : Text) (cmds : Commands) (capacity : Nat) (op : Op)
    (s : System) : Prop where
  connected : Connected w type s
  closed : (∃ pid, op = .waitpid pid false) → SameTable w s.world
  got : s.got <+: piped type cmds.output
  goes : Goes type cmds capacity op s

theorem exists_finish {s : System} {p : Process} (h : Tracked s.world p) (halive : ¬p.Gone)
    (side : Side) (how : Phase) : ∃ s', s.finish side p how = some s' := by
  obtain ⟨ch, hch, hpid⟩ := h.listed
  have hrunning : s.world.has p.pid .running :=
    ⟨ch, hch, hpid, by rw [h.status ch hch hpid, if_neg halive]⟩
  exact ⟨_, by rw [System.finish, World.changeChild, if_pos (.inl hrunning)]; rfl⟩

namespace Setting.At

variable {x : Setting} {k : Nat} {st : Side → Standing} {s s' : System} {side : Side}
  {p q : Process} {capacity : Nat}

/-- A child with a statement before `execute`. -/
theorem go_stmt {pid : Int} {fds : List (Option Nat)} {j : Nat} (hj : j < 4)
    (hp : s.child side = some ⟨pid, fds, .running ((x.program side).drop j)⟩) :
    ∃ s', s.move x.cmds capacity (.go side) = some s' := by
  cases htodo : (x.program side).drop j with
  | nil =>
      rw [x.program_eq] at htodo
      have hlen := List.drop_eq_nil_iff.mp htodo
      simp only [List.length_cons, List.length_nil] at hlen
      omega
  | cons stmt todo =>
      rw [htodo] at hp
      refine ⟨s.put side (Process.perform ⟨pid, fds, .running (stmt :: todo)⟩ todo stmt), ?_⟩
      simp only [System.move, hp, Option.bind_some, System.go]

theorem drop_last (x : Setting) (side : Side) : (x.program side).drop 4 = [] := by
  rw [x.program_eq]
  rfl

/-- Once the shell has closed its ends, an end is where it belongs or nowhere. -/
theorem unheld (h : x.At 2 st s) (hp : s.child side = some p) (hgone : p.Gone)
    (side' : Side) (hne : side' ≠ side) (hq : s.child side' = some q)
    (hlast : ∀ fd, fileOf q.fds fd = x.child side' 4 fd) :
    ¬s.Held (side.end s.file) := by
  have hclean : some (side.end s.file) ∉ s.world.fds := by
    rw [mem_fds_iff]
    rintro ⟨fd, hfd⟩
    rw [h.table, h.file] at hfd
    exact x.below hfd
  have hp' : some (side.end s.file) ∉ p.fds := by
    cases (h.of_child hp).1 with
    | running pid fds j hj htable => simp [Process.Gone] at hgone
    | exited pid => simp
    | killed pid => simp
  have hq' : some (side.end s.file) ∉ q.fds := by
    rw [mem_fds_iff]
    rintro ⟨fd, hfd⟩
    rw [hlast, h.file] at hfd
    exact hne ((x.child_last _ _).mp hfd).2
  cases side with
  | first =>
      cases side' with
      | first => exact absurd rfl hne
      | second =>
          rintro (hw | ⟨r, hr, hmem⟩ | ⟨r, hr, hmem⟩)
          · exact hclean hw
          · cases hp.symm.trans hr
            exact hp' hmem
          · cases hq.symm.trans hr
            exact hq' hmem
  | second =>
      cases side' with
      | second => exact absurd rfl hne
      | first =>
          rintro (hw | ⟨r, hr, hmem⟩ | ⟨r, hr, hmem⟩)
          · exact hclean hw
          · cases hq.symm.trans hr
            exact hq' hmem
          · cases hp.symm.trans hr
            exact hp' hmem

/-- The second child, with something to read or told that there is nothing. -/
theorem go_second (h : x.At k st s) (hq : s.child .second = some q) (halive : ¬q.Gone)
    (hready : s.buffer ≠ [] ∨
      ((∀ fd, fileOf q.fds fd = x.child .second 4 fd) → ¬s.Held (s.file + 1))) :
    ∃ s', s.move x.cmds capacity (.go .second) = some s' := by
  have htracked := (h.of_child hq).2.elim And.right fun hg => absurd hg.2 halive
  obtain ⟨s₁, hfinish⟩ := exists_finish htracked halive .second .exited
  cases (h.of_child hq).1 with
  | running pid fds j hj htable =>
      obtain hlt | rfl : j < 4 ∨ j = 4 := by omega
      · exact go_stmt hlt hq
      have hstdin : fileOf fds 0 = some s.file := by
        rw [htable, h.file]
        exact (x.child_last .second .second).mpr ⟨rfl, rfl⟩
      have hmove : s.move x.cmds capacity (.go .second) =
          s.read x.cmds.enough ⟨pid, fds, .running ((x.program .second).drop 4)⟩ := by
        simp only [System.move, hq, Option.bind_some, System.go, drop_last]
      rw [hmove, System.read]
      by_cases henough : x.cmds.enough s.got = true
      · exact ⟨s₁, by rw [if_pos henough, hfinish]⟩
      rw [if_neg henough, if_pos hstdin]
      cases hbuffer : s.buffer with
      | nil =>
          have hunheld := (hready.resolve_left fun hne => hne hbuffer) htable
          exact ⟨s₁, by simp only [if_neg hunheld, hfinish]⟩
      | cons byte buffer => exact ⟨_, rfl⟩
  | exited pid => exact absurd (.inl rfl) halive
  | killed pid => exact absurd (.inr rfl) halive

/-- The first child, with room in the pipe or nobody to read. -/
theorem go_first (h : x.At k st s) (hp : s.child .first = some p) (halive : ¬p.Gone)
    (hready : s.buffer.length < capacity ∨
      ((∀ fd, fileOf p.fds fd = x.child .first 4 fd) → ¬s.Held s.file)) :
    ∃ s', s.move x.cmds capacity (.go .first) = some s' := by
  have htracked := (h.of_child hp).2.elim And.right fun hg => absurd hg.2 halive
  obtain ⟨s₁, hkilled⟩ := exists_finish htracked halive .first .killed
  obtain ⟨s₂, hexited⟩ := exists_finish htracked halive .first .exited
  cases (h.of_child hp).1 with
  | running pid fds j hj htable =>
      obtain hlt | rfl : j < 4 ∨ j = 4 := by omega
      · exact go_stmt hlt hp
      have hmove : s.move x.cmds capacity (.go .first) =
          s.write capacity ⟨pid, fds, .running ((x.program .first).drop 4)⟩ := by
        simp only [System.move, hp, Option.bind_some, System.go, drop_last]
      rw [hmove, System.write]
      cases hunwritten : s.unwritten with
      | nil => exact ⟨s₂, hexited⟩
      | cons byte unwritten =>
          obtain ⟨fd, byte⟩ := byte
          by_cases hpiped : fileOf fds fd = some (s.file + 1)
          · simp only [if_pos hpiped]
            by_cases hheld : s.Held s.file
            · have hroom := hready.resolve_right fun hno => hno htable hheld
              simp only [hheld, not_true_eq_false, if_false, if_pos hroom]
              exact ⟨_, rfl⟩
            · exact ⟨s₁, by rw [if_pos hheld, hkilled]⟩
          · exact ⟨_, if_neg hpiped⟩
  | exited pid => exact absurd (.inl rfl) halive
  | killed pid => exact absurd (.inr rfl) halive

/-- **No deadlock**: while the shell waits, a child that is there can go on, or
the other one can. -/
theorem progress (h : x.At 2 st s) (hcapacity : 0 < capacity) :
    (∃ side s', s.move x.cmds capacity (.go side) = some s') ∨
      ∀ side, ∃ p ∈ s.child side, p.Gone := by
  obtain ⟨p, hp⟩ := h.exists_child (by omega) .first
  obtain ⟨q, hq⟩ := h.exists_child (by omega) .second
  by_cases hpgone : p.Gone
  · by_cases hqgone : q.Gone
    · refine .inr fun side => ?_
      cases side with
      | first => exact ⟨p, hp, hpgone⟩
      | second => exact ⟨q, hq, hqgone⟩
    · exact .inl ⟨.second, h.go_second hq hqgone (.inr fun hlast =>
        h.unheld hp hpgone .second (by simp) hq hlast)⟩
  by_cases hqgone : q.Gone
  · exact .inl ⟨.first, h.go_first hp hpgone (.inr fun hlast =>
      h.unheld hq hqgone .first (by simp) hp hlast)⟩
  -- both are there: what one has put into the pipe the other can read
  by_cases hroom : s.buffer.length < capacity
  · exact .inl ⟨.first, h.go_first hp hpgone (.inl hroom)⟩
  · refine .inl ⟨.second, h.go_second hq hqgone (.inl fun hempty => hroom ?_)⟩
    rw [hempty]
    exact hcapacity

theorem connected (h : x.At k st s) : Connected x.w x.type s := by
  intro side p hp
  cases (h.of_child hp).1 with
  | running pid fds j hj htable =>
      refine ⟨by simp, fun hphase => ⟨h.file, fun fd => ?_⟩⟩
      have hlast : j = 4 := by
        have hdrop := List.drop_eq_nil_iff.mp (Phase.running.inj hphase)
        rw [x.program_eq] at hdrop
        simp only [List.length_cons, List.length_nil] at hdrop
        omega
      subst hlast
      rw [htable, h.file]
      simp [child, shell]
  | exited pid => exact ⟨by simp, by simp⟩
  | killed pid => exact ⟨by simp, by simp⟩

theorem sameTable (h : x.At 2 st s) : SameTable x.w s.world :=
  fun fd => h.table fd

theorem got (h : x.At k st s) : s.got <+: piped x.type x.cmds.output := by
  rw [← h.flow.bytes, List.append_assoc]
  exact List.prefix_append ..

theorem healthy (h : x.At k st s) {op : Op} (hgoes : Goes x.type x.cmds capacity op s)
    (hop : (∃ pid, op = .waitpid pid false) → k = 2) :
    Healthy x.w x.type x.cmds capacity op s :=
  ⟨h.connected, fun hwait => (hop hwait ▸ h).sameTable, h.got, hgoes⟩

end Setting.At

/-! ## The calls of the shell -/

/-- The rules of a pipeline in which no call fails. -/
def Setting.rules (x : Setting) (capacity : Nat) : Rules Op Resp System :=
  (pipeline x.type x.cmds capacity).rules (fun _ _ r => r ≠ .failed)
    (fun _ _ m => ∀ side, m = .kill side → x.Hurt) (Healthy x.w x.type x.cmds capacity)

/-- What `executePipeCommand` calls besides the descriptors and the children. -/
inductive PlainCall : Op → Prop where
  | newCommand (kind cmdLine) : PlainCall (.newCommand kind cmdLine)
  | setPrompt (prompt) : PlainCall (.setPrompt prompt)
  | error (msg) : PlainCall (.error msg)

theorem createCommand_plain (cmdLine : Text) : (createCommand cmdLine).All PlainCall :=
  .perform_bind (.newCommand ..) fun _ =>
    .bind (.when fun _ => .perform (.setPrompt _)) fun _ => trivial

section

variable {x : Setting} {k : Nat} {st : Side → Standing} {capacity : Nat}

theorem goes_of {s : System} {op : Op} {r : Reply} (hr : r ≠ .failed)
    (h : (Shell.perform op s.world r).isSome) : Goes x.type x.cmds capacity op s := by
  obtain ⟨⟨a, w'⟩, hp⟩ := Option.isSome_iff_exists.mp h
  exact .inl ⟨r, a, _, hr, by rw [System.perform, hp]; rfl⟩

theorem stable (op : Op) : Stable (x.rules capacity) op (x.At k st) :=
  fun _ _ ⟨_, hkill, hmove⟩ h => h.move hkill hmove

/-- **A call that does not concern the pipe.** -/
theorem edge_plain {op : Op} (hop : PlainCall op) :
    Edge (x.rules capacity) (x.At k st) op fun _ => x.At k st := by
  intro s h
  constructor
  · refine h.healthy (.inl ⟨.done, ?_⟩) ?_
    · cases hop with
      | newCommand kind cmdLine => exact ⟨_, _, by simp, rfl⟩
      | setPrompt prompt => exact ⟨_, _, by simp, rfl⟩
      | error msg => exact ⟨_, _, by simp, rfl⟩
    · rintro ⟨pid, rfl⟩
      cases hop
  · rintro a s' ⟨r, -, hperform⟩
    obtain ⟨⟨a', w'⟩, hp, heq⟩ := Option.map_eq_some_iff.mp hperform
    cases hop with
    | newCommand kind cmdLine =>
        cases hp
        cases heq
        exact h.congr rfl rfl rfl rfl rfl rfl ⟨h.flow.bytes, h.flow.ended⟩
    | setPrompt prompt =>
        cases hp
        cases heq
        exact h.congr rfl rfl rfl rfl rfl rfl ⟨h.flow.bytes, h.flow.ended⟩
    | error msg =>
        cases hp
        cases heq
        exact h.congr rfl rfl rfl rfl rfl rfl ⟨h.flow.bytes, h.flow.ended⟩

theorem start_stuck (x : Setting) {m : Move} {s' : System} :
    (System.start x.w x.cmds).move x.cmds capacity m ≠ some s' := by
  cases m <;> simp [System.move, System.start]

/-- **The pipe**: the two lowest free descriptors, for two new files. -/
theorem edge_pipe : Edge (x.rules capacity) (· = System.start x.w x.cmds) .pipe fun a s =>
    a = some ((x.n : Int), (x.m : Int)) ∧ x.At 0 (.pair .unborn .unborn) s := by
  rintro _ rfl
  have hnobody : ∀ p ∈ (none : Option Process), False := by simp
  constructor
  · exact ⟨fun _ p hp => (hnobody p hp).elim, by simp, List.nil_prefix,
      .inl ⟨.done, _, _, by simp, rfl⟩⟩
  · rintro a s' ⟨r, hworks, hperform⟩
    obtain ⟨⟨a', w'⟩, hp, heq⟩ := Option.map_eq_some_iff.mp hperform
    cases r with
    | done =>
        cases hp
        cases heq
        refine ⟨rfl, rfl, rfl, fun fd => ?_, fun side => ?_, ?_, ⟨fun _ => rfl, ?_⟩, ?_, rfl, ?_⟩
        · show fileOf (setFile (setFile x.w.fds x.n (some x.w.files)) x.m
            (some (x.w.files + 1))) fd = _
          rw [fileOf_setFile, fileOf_setFile]
          rfl
        · cases side <;> rfl
        · exact fun p hp => (hnobody p hp).elim
        · exact fun hborn => absurd rfl hborn
        · exact fun hk => absurd hk (by omega)
        · exact fun _ p hp => (hnobody p hp).elim
    | failed => exact absurd rfl hworks
    | _ => cases hp

/-- **A child is born**, with the shell's table. -/
theorem Setting.At.fork {s : System} {side : Side} (h : x.At 0 st s) (hside : st side = .unborn)
    (hsecond : side = .second → st .first ≠ .unborn) (hreaped : ∀ side, st side ≠ .reaped)
    {pid : Int} (hpid : 0 < pid) (hnew : ∀ ch ∈ s.world.children, ch.pid ≠ pid) (w' : World)
    (hfds : w'.fds = s.world.fds)
    (hchildren : w'.children = s.world.children ++ [⟨pid, none, .running⟩]) :
    x.At 0 (Function.update st side (.unreaped pid))
      ({ s with world := w', forks := s.forks + 1 }.put side
        ⟨pid, s.world.fds, .running (x.program side)⟩) := by
  have hnone : s.child side = none := by
    have hstands := h.stands side
    rw [hside] at hstands
    exact hstands
  have htracked : ∀ side' q, s.child side' = some q → q.pid ≠ pid ∧ Tracked w' q := by
    intro side' q hq
    obtain ⟨-, ⟨-, ht⟩ | ⟨hst, -⟩⟩ := h.of_child hq
    · obtain ⟨ch, hch, hchpid⟩ := ht.listed
      have hne : q.pid ≠ pid := fun heq => hnew ch hch (hchpid.trans heq)
      refine ⟨hne, ht.pos, ⟨ch, ?_, hchpid⟩, fun ch' hch' hchpid' => ?_⟩
      · rw [hchildren]
        exact List.mem_append_left _ hch
      · rw [hchildren] at hch'
        obtain hold | hnew' := List.mem_append.mp hch'
        · exact ht.status ch' hold hchpid'
        · obtain rfl := List.mem_singleton.mp hnew'
          exact absurd hchpid'.symm hne
    · exact absurd hst (hreaped side')
  have hthis : Tracked w' ⟨pid, s.world.fds, .running (x.program side)⟩ := by
    refine ⟨hpid, ⟨⟨pid, none, .running⟩, by rw [hchildren]; simp, rfl⟩, fun ch hch hchpid => ?_⟩
    rw [hchildren] at hch
    obtain hold | hnew' := List.mem_append.mp hch
    · exact absurd hchpid (hnew ch hold)
    · obtain rfl := List.mem_singleton.mp hnew'
      simp [Process.Gone]
  have hself : ({ s with world := w', forks := s.forks + 1 }.put side
      ⟨pid, s.world.fds, .running (x.program side)⟩).child side =
      some ⟨pid, s.world.fds, .running (x.program side)⟩ := Function.update_self ..
  have hrest : ∀ side', side' ≠ side → ({ s with world := w', forks := s.forks + 1 }.put side
      ⟨pid, s.world.fds, .running (x.program side)⟩).child side' = s.child side' :=
    fun side' hne => Function.update_of_ne hne ..
  have hborn : ∀ side', side' ≠ side → Function.update st side (.unreaped pid) side' = st side' :=
    fun side' hne => Function.update_of_ne hne ..
  refine ⟨h.fd, h.file, fun fd => ?_, fun side' => ?_, ?_, ⟨?_, ?_⟩, ?_, h.flow.bytes, ?_⟩
  · show fileOf w'.fds fd = _
    rw [hfds]
    exact h.table fd
  · by_cases hne : side' = side
    · subst hne
      rw [Function.update_self]
      refine ⟨_, hself, .running pid s.world.fds 0 (by omega) fun fd => ?_, rfl, hthis⟩
      rw [h.table]
      simp [child]
    · have hstands := h.stands side'
      rw [hborn side' hne]
      cases hst : st side' with
      | unborn =>
          rw [hst] at hstands
          exact (hrest side' hne).trans hstands
      | unreaped pid' =>
          rw [hst] at hstands
          obtain ⟨q, hq, hqfits, hqpid, -⟩ := hstands
          exact ⟨q, (hrest side' hne).trans hq, hqfits, hqpid, (htracked side' q hq).2⟩
      | reaped => exact absurd hst (hreaped side')
  · intro q hq r hr
    cases side with
    | first =>
        rw [hself] at hq
        rw [hrest .second (by simp)] at hr
        cases hq
        exact (htracked .second r hr).1.symm
    | second =>
        rw [hself] at hr
        rw [hrest .first (by simp)] at hq
        cases hr
        exact (htracked .first q hq).1
  · intro hfirst
    cases side with
    | first => simp at hfirst
    | second =>
        rw [hborn .first (by simp)] at hfirst
        exact absurd hfirst (hsecond rfl)
  · intro _ hsecond'
    cases side with
    | first =>
        show s.forks + 1 = 1
        rw [h.forks.1 hside]
    | second => simp at hsecond'
  · exact fun hk => absurd hk (by omega)
  · intro side' q hq hqgone
    by_cases hne : side' = side
    · subst hne
      cases hself.symm.trans hq
      simp [Process.Gone] at hqgone
    · have hq' : s.child side' = some q := (hrest side' hne).symm.trans hq
      refine (h.flow.ended side' q hq' hqgone).mono rfl rfl rfl ?_
      rintro side'' ⟨r, hr, hrgone⟩
      refine ⟨r, (hrest side'' ?_).trans hr, hrgone⟩
      rintro rfl
      rw [hnone] at hr
      cases hr

theorem pair_first (a b c : Standing) :
    Function.update (Standing.pair a b) .first c = .pair c b := by
  funext side
  cases side <;> rfl

theorem pair_second (a b c : Standing) :
    Function.update (Standing.pair a b) .second c = .pair a c := by
  funext side
  cases side <;> rfl

/-- The child that a `fork` starts. -/
theorem edge_fork (side : Side) (hside : st side = .unborn)
    (hsecond : side = .second ↔ st .first ≠ .unborn) (hreaped : ∀ side, st side ≠ .reaped) :
    Edge (x.rules capacity) (x.At 0 st) (.fork none) fun (pid : Int) s =>
      pid ≠ -1 ∧ x.At 0 (Function.update st side (.unreaped pid)) s := by
  intro s h
  constructor
  · -- there is always a pid that no child has
    obtain ⟨pid, hpid, hnew⟩ : ∃ pid : Int, 0 < pid ∧ ∀ ch ∈ s.world.children, ch.pid ≠ pid := by
      refine ⟨((s.world.children.map fun ch => ch.pid.toNat).sum + 1 : Nat), by omega, ?_⟩
      intro ch hch heq
      have hle := List.single_le_sum (fun _ _ => Nat.zero_le _) _
        (List.mem_map_of_mem (f := fun ch : Child => ch.pid.toNat) hch)
      omega
    refine h.healthy (goes_of (r := .pid pid) (by simp) ?_) (by simp)
    simp only [Shell.perform, World.fork, if_pos (And.intro hpid hnew), Option.isSome_some]
  · rintro (pid : Int) s' ⟨r, hworks, hperform⟩
    obtain ⟨⟨a, w'⟩, hp, heq⟩ := Option.map_eq_some_iff.mp hperform
    cases r with
    | pid p =>
        simp only [Shell.perform, World.fork] at hp
        split at hp
        · rename_i hfresh
          cases hp
          cases heq
          have hne : pid ≠ -1 := by
            have hpos := hfresh.1
            omega
          refine ⟨hne, ?_⟩
          have hat := h.fork hside hsecond.mp hreaped hfresh.1 hfresh.2
            { s.world with
              children := s.world.children ++ [⟨pid, none, .running⟩]
              forked := s.world.forked ++ [pid] } rfl rfl
          have hfd := h.fd
          cases side with
          | first =>
              have hforks := h.forks.1 hside
              simp only [System.after, System.fork, if_neg hne, hforks, hfd]
              simp only [hforks, hfd] at hat
              exact hat
          | second =>
              have hforks := h.forks.2 (hsecond.mp rfl) hside
              simp only [System.after, System.fork, if_neg hne, hforks, hfd]
              simp only [hforks, hfd] at hat
              exact hat
        · cases hp
    | failed => exact absurd rfl hworks
    | _ => cases hp

/-- **The shell closes** its copy of an end. -/
theorem edge_close {fd : Nat} (hopen : x.shell k fd ≠ none) (hborn : ∀ side, st side ≠ .unborn)
    (htable : ∀ fd' : Int, (if fd' = fd then none else x.shell k fd') = x.shell (k + 1) fd') :
    Edge (x.rules capacity) (x.At k st) (.close fd) fun n s => n = 0 ∧ x.At (k + 1) st s := by
  intro s h
  obtain ⟨file, hfile⟩ := Option.ne_none_iff_exists'.mp hopen
  have hperform : ∀ r, s.perform x.type (.close fd) r =
      some (0, { s with world := { s.world with fds := setFile s.world.fds fd none } }) := by
    intro r
    have hopen' : fileOf s.world.fds fd = some file := (h.table fd).trans hfile
    simp only [System.perform, Shell.perform, World.close, hopen', Option.map_some,
      System.after, Int.toNat_natCast]
  constructor
  · exact h.healthy (.inl ⟨.done, _, _, by simp, hperform .done⟩) (by simp)
  · rintro n s' ⟨r, -, hr⟩
    cases (hperform r).symm.trans hr
    refine ⟨rfl, h.fd, h.file, fun fd' => ?_, fun side => ?_, h.apart, h.forks, fun _ => hborn,
      h.flow.bytes, h.flow.ended⟩
    · show fileOf (setFile s.world.fds fd none) fd' = _
      rw [fileOf_setFile, h.table]
      exact htable fd'
    · have hstands := h.stands side
      cases hst : st side with
      | unborn => exact absurd hst (hborn side)
      | unreaped pid =>
          rw [hst] at hstands
          obtain ⟨p, hp, hfits, hpid, htracked⟩ := hstands
          exact ⟨p, hp, hfits, hpid, htracked.pos, htracked.listed, htracked.status⟩
      | reaped =>
          rw [hst] at hstands
          exact hstands

/-- **The shell waits** for a child. -/
theorem edge_wait (side : Side) {pid : Int} (hside : st side = .unreaped pid)
    (hcapacity : 0 < capacity) :
    Edge (x.rules capacity) (x.At 2 st) (.waitpid pid false) fun how s =>
      how ≠ .failed ∧ x.At 2 (Function.update st side .reaped) s := by
  intro s h
  have hstands := h.stands side
  rw [hside] at hstands
  obtain ⟨p, hp, hfits, rfl, htracked⟩ := hstands
  constructor
  · refine h.healthy ?_ fun _ => rfl
    obtain hgoes | hgone := h.progress hcapacity
    · exact .inr hgoes
    · obtain ⟨p', hp', hpgone⟩ := hgone side
      cases hp.symm.trans hp'
      obtain ⟨ch, hch, hchpid⟩ := htracked.listed
      have hended : s.world.has p.pid .ended :=
        ⟨ch, hch, hchpid, by rw [htracked.status ch hch hchpid, if_pos hpgone]⟩
      have hboth : Addresses p.pid p.pid ∧ s.world.has p.pid .ended := ⟨.inl rfl, hended⟩
      refine goes_of (r := .ended p.pid) (by simp) ?_
      simp only [Shell.perform, World.waitpid, if_pos hboth, Option.isSome_some]
  · rintro how s' ⟨r, hworks, hperform⟩
    obtain ⟨⟨a, w'⟩, hw, heq⟩ := Option.map_eq_some_iff.mp hperform
    cases r with
    | ended q =>
        simp only [Shell.perform, World.waitpid] at hw
        split at hw
        · rename_i hended
          have hpos := htracked.pos
          obtain rfl : p.pid = q := hended.1.resolve_right (by omega)
          obtain ⟨ch, hch, hchpid, hchstatus⟩ := hended.2
          have hpgone : p.Gone := by
            by_contra halive
            have hstatus := htracked.status ch hch hchpid
            rw [hchstatus, if_neg halive] at hstatus
            cases hstatus
          simp only [Bool.false_eq_true, if_false, Option.some.injEq, Prod.mk.injEq] at hw
          obtain ⟨rfl, rfl⟩ := hw
          cases heq
          refine ⟨by simp, h.fd, h.file, h.table, fun side' => ?_, h.apart, ?_, fun _ side' => ?_,
            h.flow.bytes, h.flow.ended⟩
          · by_cases hne : side' = side
            · subst hne
              rw [Function.update_self]
              exact ⟨p, hp, hfits, hpgone⟩
            · rw [Function.update_of_ne hne]
              have hstands := h.stands side'
              cases hst : st side' with
              | unborn => exact absurd hst (h.born (by omega) side')
              | reaped =>
                  rw [hst] at hstands
                  exact hstands
              | unreaped pid =>
                  rw [hst] at hstands
                  obtain ⟨r, hr, hrfits, hrpid, hrtracked⟩ := hstands
                  have hrp : r.pid ≠ p.pid := by
                    cases side' with
                    | first =>
                        cases side with
                        | first => exact absurd rfl hne
                        | second => exact h.apart r hr p hp
                    | second =>
                        cases side with
                        | first => exact (h.apart p hp r hr).symm
                        | second => exact absurd rfl hne
                  refine ⟨r, hr, hrfits, hrpid, hrtracked.pos, ?_, fun ch' hch' => ?_⟩
                  · obtain ⟨ch', hch', hpid'⟩ := hrtracked.listed
                    refine ⟨ch', List.mem_filter.mpr ⟨hch', ?_⟩, hpid'⟩
                    simp [hpid', hrp]
                  · exact hrtracked.status ch' (List.mem_filter.mp hch').1
          · have hborn := h.born (by omega)
            refine ⟨fun hfirst => ?_, fun _ hsecond => ?_⟩
            · cases side with
              | first => simp at hfirst
              | second => exact absurd hfirst (by simpa using hborn .first)
            · cases side with
              | first => exact absurd hsecond (by simpa using hborn .second)
              | second => simp at hsecond
          · by_cases hne : side' = side
            · subst hne
              simp
            · rw [Function.update_of_ne hne]
              exact h.born (by omega) side'
        · cases hw
    | stopped q => simp [Shell.perform, World.waitpid] at hw
    | failed => exact absurd rfl hworks
    | _ => cases hw

end

/-- **`executePipeCommand`**, among its children: every call of it can be made
or waits for one of them, and at its end both are reaped. -/
theorem executePipeCommand_holds (x : Setting) {capacity : Nat} (hcapacity : 0 < capacity)
    (cmdLine : Text) :
    Holds (x.rules capacity) (executePipeCommand cmdLine x.type)
      (fun _ => x.At 2 (.pair .reaped .reaped)) (System.start x.w x.cmds) := by
  have hplain : ∀ (k : Nat) (st : Side → Standing) {α : Type} {p : Code α} {s : System},
      p.All PlainCall → x.At k st s → Holds (x.rules capacity) p (fun _ => x.At k st) s :=
    fun k st _ _ _ hp h => hp.holds (fun op _ => stable op) (fun op hop => edge_plain hop) h
  have hstill : Stable (x.rules capacity) .pipe (· = System.start x.w x.cmds) := by
    rintro s s' ⟨m, -, hmove⟩ rfl
    exact absurd hmove (start_stuck x)
  unfold executePipeCommand
  refine edge_pipe.holds hstill rfl ?_
  rintro _ s₁ ⟨rfl, h₁⟩
  refine (hplain 0 _ (createCommand_plain _) h₁).bind fun _ s₂ h₂ => ?_
  refine (hplain 0 _ (createCommand_plain _) h₂).bind fun _ s₃ h₃ => ?_
  -- the first child
  rw [Prog.perform_bind]
  refine (edge_fork .first rfl (by simp [Standing.pair])
    (fun side => by cases side <;> simp [Standing.pair])).holds (stable _) h₃ ?_
  rintro (res : Int) s₄ ⟨hres, h₄⟩
  rw [pair_first] at h₄
  have hgo : Holds (x.rules capacity) (Prog.when (res = -1) (error "smash error: open failed"))
      (fun _ => x.At 0 (.pair (.unreaped res) .unborn)) s₄ :=
    .when (fun hno => absurd hno hres) fun _ => h₄
  refine hgo.bind fun _ s₅ h₅ => ?_
  -- the second child
  rw [Prog.perform_bind]
  refine (edge_fork .second rfl (by simp [Standing.pair])
    (fun side => by cases side <;> simp [Standing.pair])).holds (stable _) h₅ ?_
  rintro (res2 : Int) s₆ ⟨hres2, h₆⟩
  rw [pair_second] at h₆
  have hgo2 : Holds (x.rules capacity) (Prog.when (res2 = -1) (error "smash error: open failed"))
      (fun _ => x.At 0 (.pair (.unreaped res) (.unreaped res2))) s₆ :=
    .when (fun hno => absurd hno hres2) fun _ => h₆
  refine hgo2.bind fun _ s₇ h₇ => ?_
  have hborn : ∀ side, Standing.pair (.unreaped res) (.unreaped res2) side ≠ .unborn := by
    intro side
    cases side <;> simp [Standing.pair]
  rw [Prog.perform_bind]
  refine (edge_close x.shell_open_n hborn x.shell_close_n).holds (stable _) h₇ ?_
  rintro _ s₈ ⟨rfl, h₈⟩
  rw [if_neg (by simp)]
  rw [Prog.perform_bind]
  refine (edge_close x.shell_open_m hborn x.shell_close_m).holds (stable _) h₈ ?_
  rintro _ s₉ ⟨rfl, h₉⟩
  rw [if_neg (by simp)]
  rw [Prog.perform_bind]
  refine (edge_wait .first rfl hcapacity).holds (stable _) h₉ ?_
  rintro how s₁₀ ⟨hhow, h₁₀⟩
  rw [pair_first] at h₁₀
  rw [if_neg hhow]
  rw [Prog.perform_bind]
  refine (edge_wait .second rfl hcapacity).holds (stable _) h₁₀ ?_
  rintro how2 s₁₁ ⟨hhow2, h₁₁⟩
  rw [pair_second] at h₁₁
  rw [if_neg hhow2]
  exact h₁₁

/-! ## How long it can go on -/

/-- The steps a child may still make, apart from those that move bytes. -/
def Phase.left : Phase → Nat
  | .running todo => todo.length + 1
  | .returned => 1
  | .exited => 0
  | .killed => 0

def childLeft (p : Option Process) : Nat := (p.map fun p => p.phase.left).getD 0

/-- With the children that are not born, and twice the bytes not written. -/
def System.left (s : System) : Nat :=
  5 * (2 - s.forks) + childLeft (s.child .first) + childLeft (s.child .second) +
    2 * s.unwritten.length + s.buffer.length

theorem put_left (s : System) (side : Side) (p : Process) :
    (s.put side p).left + childLeft (s.child side) = s.left + p.phase.left := by
  cases side with
  | first =>
      simp [System.left, System.put, childLeft]
      omega
  | second =>
      simp [System.left, System.put, childLeft]
      omega

theorem fork_left (type : Text) (s : System) (pid : Int) : (s.fork type pid).left ≤ s.left := by
  have hfirst : (Phase.running (firstChild type s.fd)).left = 5 := rfl
  have hsecond : (Phase.running (secondChild s.fd)).left = 5 := rfl
  have hforked : ({ s with forks := s.forks + 1 } : System).left + 5 * (2 - s.forks) =
      s.left + 5 * (2 - (s.forks + 1)) := by
    simp only [System.left]
    omega
  simp only [System.fork]
  split
  · omega
  · split
    · rename_i hforks
      have hput := put_left { s with forks := s.forks + 1 } .first
        ⟨pid, s.world.fds, .running (firstChild type s.fd)⟩
      simp only [hfirst] at hput
      omega
    · rename_i hforks
      have hput := put_left { s with forks := s.forks + 1 } .second
        ⟨pid, s.world.fds, .running (secondChild s.fd)⟩
      simp only [hsecond] at hput
      omega
    · omega

theorem perform_left {type : Text} {op : Op} {s s' : System} {r : Reply} {a : Resp op}
    (h : s.perform type op r = some (a, s')) : s'.left ≤ s.left := by
  obtain ⟨⟨a', w'⟩, -, heq⟩ := Option.map_eq_some_iff.mp h
  cases heq
  unfold System.after
  split
  · exact le_rfl
  · exact fork_left ..
  · exact le_rfl

theorem finish_left {s s' : System} {side : Side} {p : Process} {how : Phase}
    (hp : s.child side = some p) (halive : 0 < p.phase.left) (hhow : how.left = 0)
    (h : s.finish side p how = some s') : s'.left < s.left := by
  obtain ⟨w', -, rfl⟩ := Option.map_eq_some_iff.mp h
  have hput := put_left { s with world := w' } side ⟨p.pid, [], how⟩
  have hchild : childLeft (s.child side) = p.phase.left := by
    rw [hp]
    rfl
  have hworld : ({ s with world := w' } : System).left = s.left := rfl
  simp only [hchild, hhow, hworld] at hput
  omega

theorem process_perform_left (p : Process) (stmt : Stmt) (todo : List Stmt) :
    (p.perform todo stmt).phase.left ≤ todo.length + 1 := by
  cases stmt with
  | dup2 oldFd newFd =>
      simp only [Process.perform]
      split <;> simp [Phase.left]
  | close fd =>
      simp only [Process.perform]
      split <;> simp [Phase.left]
  | setpgrp => simp [Process.perform, Phase.left]

/-- **Every move of a child** uses something up. -/
theorem move_left {cmds : Commands} {capacity : Nat} {s s' : System} {m : Move}
    (h : s.move cmds capacity m = some s') : s'.left < s.left := by
  cases m with
  | go side =>
      obtain ⟨p, hp, hgo⟩ := Option.bind_eq_some_iff.mp h
      unfold System.go at hgo
      split at hgo
      · rename_i stmt todo hphase
        cases hgo
        have hput := put_left s side (p.perform todo stmt)
        have hnext := process_perform_left p stmt todo
        have hchild : childLeft (s.child side) = todo.length + 2 := by
          simp [hp, childLeft, hphase, Phase.left]
        omega
      · rename_i hphase
        have halive : 0 < p.phase.left := by simp [hphase, Phase.left]
        cases side with
        | first =>
            simp only [System.write] at hgo
            split at hgo
            · exact finish_left hp halive rfl hgo
            · rename_i fd byte unwritten hunwritten
              split at hgo
              · split at hgo
                · exact finish_left hp halive rfl hgo
                · split at hgo
                  · cases hgo
                    simp only [System.left, hunwritten, List.length_append, List.length_cons,
                      List.length_nil]
                    omega
                  · cases hgo
              · cases hgo
                simp only [System.left, hunwritten, List.length_cons]
                omega
        | second =>
            simp only [System.read] at hgo
            split at hgo
            · exact finish_left hp halive rfl hgo
            · split at hgo
              · split at hgo
                · rename_i byte buffer hbuffer
                  cases hgo
                  simp only [System.left, hbuffer, List.length_cons]
                  omega
                · split at hgo
                  · cases hgo
                  · exact finish_left hp halive rfl hgo
              · cases hgo
      · cases hgo
  | kill side =>
      obtain ⟨p, hp, hgo⟩ := Option.bind_eq_some_iff.mp h
      split at hgo
      · cases hgo
      · rename_i halive
        refine finish_left hp ?_ rfl hgo
        cases hphase : p.phase with
        | running todo => simp [Phase.left]
        | returned => simp [Phase.left]
        | exited => exact absurd (.inl hphase) halive
        | killed => exact absurd (.inr hphase) halive

theorem createCommand_within (cmdLine : Text) : (createCommand cmdLine).Within 2 :=
  (Prog.Within.perform _).bind (m := 1) (n := 1) fun _ =>
    (Prog.Within.when (.perform _)).bind (m := 1) (n := 0) fun _ => .ret 0 _

/-- The calls of `executePipeCommand`. -/
theorem executePipeCommand_within (cmdLine type : Text) :
    (executePipeCommand cmdLine type).Within 14 := by
  have herror : ∀ (n : Nat) (msg : String), (error msg).Within (n + 1) :=
    fun n msg => (Prog.Within.perform _).mono (by omega)
  refine (Prog.Within.perform _).bind (m := 1) (n := 13) fun p => ?_
  match p with
  | none => exact herror 12 _
  | some (fd0, fd1) =>
      refine (createCommand_within _).bind (m := 2) (n := 11) fun _ => ?_
      refine (createCommand_within _).bind (m := 2) (n := 9) fun _ => ?_
      refine (Prog.Within.perform _).bind (m := 1) (n := 8) fun res => ?_
      refine (Prog.Within.when (herror 0 _)).bind (m := 1) (n := 7) fun _ => ?_
      refine (Prog.Within.perform _).bind (m := 1) (n := 6) fun res2 => ?_
      refine (Prog.Within.when (herror 0 _)).bind (m := 1) (n := 5) fun _ => ?_
      refine (Prog.Within.perform _).bind (m := 1) (n := 4) fun _ => ?_
      split
      · exact herror 3 _
      refine (Prog.Within.perform _).bind (m := 1) (n := 3) fun _ => ?_
      split
      · exact herror 2 _
      refine (Prog.Within.perform _).bind (m := 1) (n := 2) fun _ => ?_
      split
      · exact herror 1 _
      refine (Prog.Within.perform _).bind (m := 1) (n := 1) fun _ => ?_
      split
      · exact herror 0 _
      · exact .ret 1 ()

/-! ## Every run -/

section

variable {w : World} {cmdLine type : Text} {cmds : Commands} {capacity : Nat} {es : List Event}
  {c : Loop.Config Op Resp System}

/-- What `executePipeCommand_holds` says of the state a run has reached. -/
theorem run_sound (x : Setting) (hcapacity : 0 < capacity) (hworks : Works es)
    (hkill : ¬Spared es → x.Hurt)
    (hrun : runFrom (pipeline x.type x.cmds capacity).step (start x.w cmdLine x.type x.cmds) es =
      .ok c) :
    (c.prog.head = none ∧ x.At 2 (.pair .reaped .reaped) c.state) ∨
      ∃ op, c.prog.head = some op ∧ Healthy x.w x.type x.cmds capacity op c.state := by
  have hmeets : ∀ e ∈ es, e ≠ .statement .failed ∧
      ∀ side, e = .interrupt (.kill side) → x.Hurt := by
    intro e he
    refine ⟨hworks e he, fun side hkilled => hkill fun hspared => ?_⟩
    exact hspared e he side hkilled
  have hsound : Loop.Sound (x.rules capacity) (x.At 2 (.pair .reaped .reaped)) c := by
    have hstart : Loop.Sound (x.rules capacity) (x.At 2 (.pair .reaped .reaped))
        (start x.w cmdLine x.type x.cmds) := executePipeCommand_holds x hcapacity cmdLine
    refine Loop.run_sound (fun i => nomatch i) ?_ hstart ((Along.of_mem hmeets _).imp ?_) hrun
    · intro m s s' h hm hmove
      exact h.move hm hmove
    · rintro c (i | r | m) ⟨hr, hm⟩
      · exact i.elim
      · intro op _ heq
        exact hr (congrArg _ heq)
      · intro side heq
        exact hm side (congrArg _ heq)
  cases hprog : c.prog.head with
  | none =>
      obtain ⟨s, p⟩ := c
      cases p with
      | ret a => exact .inl ⟨rfl, hsound⟩
      | call op next => cases hprog
  | some op => exact .inr ⟨op, rfl, hsound.pre hprog⟩

/-- It writes two bytes to the pipe and one elsewhere. -/
def twoBytes : Commands := ⟨[(1, 10), (2, 7), (1, 20)], fun _ => false⟩

/-- `a|b`, with room for one byte: the first is read before the second is written. -/
def twoBytesEvents : List Event :=
  [.statement .done, .statement .done, .statement .done, .statement (.pid 10)] ++
    List.replicate 6 (.interrupt (.go .first)) ++
    [.statement (.pid 11), .statement .done, .statement .done] ++
    List.replicate 5 (.interrupt (.go .second)) ++ List.replicate 2 (.interrupt (.go .first)) ++
    [.statement (.ended 10), .interrupt (.go .second), .interrupt (.go .second),
      .statement (.ended 11)]

set_option maxRecDepth 10000 in
theorem twoBytes_runs : ∃ c, runFrom (pipeline "|".toList twoBytes 1).step
      (start (.start 0 "/".toList) "a|b".toList "|".toList twoBytes) twoBytesEvents = .ok c ∧
    c.prog.head = none := by
  have hview : (Loop.view (runFrom (pipeline "|".toList twoBytes 1).step
      (start (.start 0 "/".toList) "a|b".toList "|".toList twoBytes) twoBytesEvents)).map Prod.fst =
      some none := by decide +kernel
  obtain ⟨v, hv, hhead⟩ := Option.map_eq_some_iff.mp hview
  obtain ⟨c, hc, hhead', -⟩ := Loop.exists_of_view hv
  exact ⟨c, hc, hhead'.trans hhead⟩

theorem twoBytes_works : Works twoBytesEvents := by
  simp [Works, twoBytesEvents]

/-- **Everything is where it belongs.** A child in `execute` has its end of the
pipe on the descriptor that is meant for it and the shell's table otherwise;
the shell has its table back before it waits. -/
theorem pipe_connects (hw : Ready w) (hcapacity : 0 < capacity) (hworks : Works es)
    (hrun : runFrom (pipeline type cmds capacity).step (start w cmdLine type cmds) es = .ok c) :
    Connected w type c.state ∧
      (c.prog.head = none ∨ (∃ pid, c.prog.head = some (.waitpid pid false)) →
        SameTable w c.state.world) := by
  obtain ⟨hhead, hat⟩ | ⟨op, hhead, hhealthy⟩ :=
    run_sound ⟨w, hw, type, cmds, True⟩ hcapacity hworks (fun _ => trivial) hrun
  · exact ⟨hat.connected, fun _ => hat.sameTable⟩
  · refine ⟨hhealthy.connected, fun hends => hhealthy.closed ?_⟩
    obtain hnone | ⟨pid, hwait⟩ := hends
    · rw [hnone] at hhead
      cases hhead
    · exact ⟨pid, Option.some.inj (hhead.symm.trans hwait)⟩

theorem pipe_connects_two : ∃ c, runFrom (pipeline "|".toList twoBytes 1).step
      (start (.start 0 "/".toList) "a|b".toList "|".toList twoBytes) twoBytesEvents = .ok c ∧
    SameTable (.start 0 "/".toList) c.state.world := by
  obtain ⟨c, hrun, hhead⟩ := twoBytes_runs
  exact ⟨c, hrun, (pipe_connects (start_ready _ _) (by decide) twoBytes_works hrun).2 (.inl hhead)⟩

/-- **No pipeline hangs**, whoever is killed: some process can go on until
`executePipeCommand` has returned, and there is a bound on the steps until then. -/
theorem pipe_ends (hw : Ready w) (hcapacity : 0 < capacity) (hworks : Works es)
    (hrun : runFrom (pipeline type cmds capacity).step (start w cmdLine type cmds) es = .ok c) :
    es.length ≤ 24 + 2 * cmds.output.length ∧
      (c.prog.head = none ∨ ∃ e c', e ≠ .statement .failed ∧
        (∀ side, e ≠ .interrupt (.kill side)) ∧
        (pipeline type cmds capacity).step c e = .ok c') := by
  constructor
  · have hlength := Loop.length_le System.left (fun _ => rfl)
      (fun _ _ _ _ _ => perform_left) (fun _ _ _ _ => move_left)
      (executePipeCommand_within cmdLine type) hrun
    have hleft : (System.start w cmds).left = 10 + 2 * cmds.output.length := by
      simp [System.left, System.start, childLeft]
    simp only [start, hleft] at hlength
    omega
  · obtain ⟨hhead, -⟩ | ⟨op, hhead, hhealthy⟩ :=
      run_sound ⟨w, hw, type, cmds, True⟩ hcapacity hworks (fun _ => trivial) hrun
    · exact .inl hhead
    · obtain ⟨s, p⟩ := c
      cases p with
      | ret a => cases hhead
      | call op next =>
          cases hhead
          obtain ⟨r, a, s', hr, hperform⟩ | ⟨side, s', hmove⟩ := hhealthy.goes
          · refine .inr ⟨.statement r, ⟨s', next a⟩, by simpa using hr, by simp, ?_⟩
            have hperform' : (pipeline type cmds capacity).perform op s r = some (a, s') :=
              hperform
            simp only [Loop.step, hperform']
          · refine .inr ⟨.interrupt (.go side), ⟨s', .call op next⟩, by simp, by simp, ?_⟩
            have hmove' : (pipeline type cmds capacity).interrupt (some op) s (.go side) =
                some s' := hmove
            simp only [Loop.step, Prog.head, hmove']

theorem pipe_ends_two : twoBytesEvents.length ≤ 24 + 2 * twoBytes.output.length := by
  obtain ⟨c, hrun, -⟩ := twoBytes_runs
  exact (pipe_ends (start_ready _ _) (by decide) twoBytes_works hrun).1

/-- **What arrives is what was sent**: at any moment the second command has read
a prefix of what the first one writes to its descriptor; when the shell goes on
both are gone; and if nobody was killed and the second reads to the end, it has
read all of it. -/
theorem pipe_delivers (hw : Ready w) (hcapacity : 0 < capacity) (hworks : Works es)
    (hrun : runFrom (pipeline type cmds capacity).step (start w cmdLine type cmds) es = .ok c) :
    c.state.got <+: piped type cmds.output ∧
      (c.prog.head = none → (∀ side, ∃ p ∈ c.state.child side, p.Gone) ∧
        (Spared es → (∀ read, cmds.enough read = false) →
          c.state.got = piped type cmds.output)) := by
  obtain ⟨hhead, hat⟩ | ⟨op, hhead, hhealthy⟩ :=
    run_sound ⟨w, hw, type, cmds, ¬Spared es⟩ hcapacity hworks id hrun
  · have hgone : ∀ side, ∃ p ∈ c.state.child side, p.Gone := by
      intro side
      have hstands := hat.stands side
      cases side with
      | first =>
          obtain ⟨p, hp, -, hpgone⟩ := hstands
          exact ⟨p, hp, hpgone⟩
      | second =>
          obtain ⟨p, hp, -, hpgone⟩ := hstands
          exact ⟨p, hp, hpgone⟩
    refine ⟨hat.got, fun _ => ⟨hgone, fun hspared henough => ?_⟩⟩
    obtain ⟨q, hq, hqgone⟩ := hgone .second
    have hends := hat.flow.ended .second q hq hqgone
    have hbytes := hat.flow.bytes
    obtain hphase | hphase := hqgone
    · rw [hphase] at hends
      obtain hstopped | ⟨hempty, hhurt | hwritten, -⟩ := hends
      · rw [henough] at hstopped
        cases hstopped
      · exact absurd hspared hhurt
      · rw [hempty, hwritten, List.append_nil] at hbytes
        simpa [piped] using hbytes
    · rw [hphase] at hends
      exact absurd hspared hends
  · refine ⟨hhealthy.got, fun hnone => ?_⟩
    rw [hnone] at hhead
    cases hhead

theorem pipe_delivers_two : ∃ c, runFrom (pipeline "|".toList twoBytes 1).step
      (start (.start 0 "/".toList) "a|b".toList "|".toList twoBytes) twoBytesEvents = .ok c ∧
    c.state.got = piped "|".toList twoBytes.output := by
  obtain ⟨c, hrun, hhead⟩ := twoBytes_runs
  have hspared : Spared twoBytesEvents := by simp [Spared, twoBytesEvents]
  exact ⟨c, hrun, ((pipe_delivers (start_ready _ _) (by decide) twoBytes_works hrun).2 hhead).2
    hspared fun _ => rfl⟩

end

end OsAllHw.Shell.Pipeline
