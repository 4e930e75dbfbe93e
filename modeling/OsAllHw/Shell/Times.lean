import Mathlib
import OsAllHw.Lib.Run

/-!
# The times list and the alarm

`TimesList` of `Commands.cpp`, the lines of `executeCommand` that arm the
alarm, and the alarm handler. The kernel keeps one pending alarm; `alarm(d)`
replaces it.

The alarm is armed for the first deadline as long as no `timeout` is issued
that lasts less than the front entry was given and yet ends after it:
`executeCommand` compares the two durations, not the two deadlines.
-/

namespace OsAllHw.Shell

open Lib

structure TimeEntry where
  pid : Int
  cmd : Nat
  initTime : Int
  finishTime : Int
  deriving DecidableEq

namespace TimesList

def getDuration (e : TimeEntry) : Int := e.finishTime - e.initTime

/-- The loop of `addToTimesList`: before the first entry that finishes
later, else at the end. -/
def insertByFinish (newTime : TimeEntry) : List TimeEntry → List TimeEntry
  | [] => [newTime]
  | e :: rest =>
      if e.finishTime > newTime.finishTime then newTime :: e :: rest
      else e :: insertByFinish newTime rest

def addToTimesList (l : List TimeEntry) (cmd : Nat) (pid duration initTime : Int) :
    List TimeEntry :=
  insertByFinish ⟨pid, cmd, initTime, initTime + duration⟩ l

/-- 0 for an empty list. -/
def getClosestAlarm : List TimeEntry → Int
  | [] => 0
  | front :: _ => getDuration front

/-- The `while` loop of `killFinishedAlarms`. -/
def eraseFinished (currTime : Int) : List TimeEntry → List TimeEntry
  | [] => []
  | e :: rest =>
      if e.finishTime - currTime ≤ 0 then eraseFinished currTime rest else e :: rest

/-- What one call of `killFinishedAlarms` leaves and does. -/
structure Fired where
  times : List TimeEntry
  /-- The process it sent SIGKILL. -/
  killed : Option Int
  /-- The argument of its `alarm` call. -/
  rearm : Option Int
  deriving DecidableEq

/-- `alive pid`: the jobs list has the process or `kill(pid, 0)` finds it;
`killOk`: sending SIGKILL succeeds. -/
def killFinishedAlarms (alive : Int → Bool) (killOk : Bool) (currTime : Int)
    (times : List TimeEntry) : Fired :=
  match times with
  | [] => ⟨[], none, none⟩
  | front :: rest =>
      if front.finishTime > currTime then ⟨front :: rest, none, none⟩
      else if alive front.pid && !killOk then ⟨front :: rest, none, none⟩
      else
        let left := eraseFinished currTime (front :: rest)
        ⟨left, if alive front.pid then some front.pid else none,
          left.head?.map fun e => e.finishTime - currTime⟩

/-- `alarm(seconds)` at time `now`: the time of the pending alarm after it. The
call takes an unsigned number; `seconds` is not negative here. -/
def alarm (now seconds : Int) : Option Int :=
  if seconds = 0 then none else some (now + seconds)

/-- Whether `executeCommand` calls `alarm(duration)` for a `timeout`. -/
def rearms (times : List TimeEntry) (duration : Int) : Bool :=
  decide (getClosestAlarm times = 0) || decide (getClosestAlarm times > duration)

/-! ## The timer over time -/

structure Timer where
  now : Int
  /-- When the pending alarm expires. -/
  pending : Option Int
  times : List TimeEntry
  deriving DecidableEq

inductive Event where
  | tick (seconds : Nat)
  | timeout (cmd : Nat) (pid duration : Int)
  /-- The pending alarm expires and its handler runs. -/
  | expire (alive : Int → Bool)

inductive Disabled where
  | disabled
  deriving DecidableEq

def Timer.start (now : Int) : Timer := ⟨now, none, []⟩

/-- The lines of `executeCommand` for a `timeout` of `duration` seconds. -/
def Timer.timeout (t : Timer) (cmd : Nat) (pid duration : Int) : Timer :=
  { t with
    pending := if rearms t.times duration then alarm t.now duration else t.pending
    times := addToTimesList t.times cmd pid duration t.now }

/-- The handler, its `kill` succeeding; the alarm that ran it is spent. -/
def Timer.expire (t : Timer) (alive : Int → Bool) : Timer :=
  let fired := killFinishedAlarms alive true t.now t.times
  { t with
    pending := fired.rearm.bind (alarm t.now)
    times := fired.times }

def Timer.step (t : Timer) : Event → Except Disabled Timer
  | .tick seconds => .ok { t with now := t.now + seconds }
  | .timeout cmd pid duration =>
      if 0 < duration then .ok (t.timeout cmd pid duration) else .error .disabled
  | .expire alive =>
      if ∃ p ∈ t.pending, p ≤ t.now then .ok (t.expire alive) else .error .disabled

/-- An alarm is pending and expires no later than the front entry. -/
def Timer.Armed (t : Timer) : Prop :=
  ∀ front ∈ t.times.head?, ∃ p ∈ t.pending, p ≤ front.finishTime

instance (t : Timer) : Decidable t.Armed := by
  unfold Timer.Armed
  infer_instance

/-- A `timeout` shorter than the front entry's own duration ends no later
than the front entry. -/
def Timer.Fits (t : Timer) : Event → Prop
  | .timeout _ _ duration => ∀ front ∈ t.times.head?,
      duration < getDuration front → t.now + duration ≤ front.finishTime
  | _ => True

instance (t : Timer) : (e : Event) → Decidable (t.Fits e)
  | .timeout _ _ duration => inferInstanceAs (Decidable (∀ front ∈ t.times.head?,
      duration < getDuration front → t.now + duration ≤ front.finishTime))
  | .tick _ => .isTrue trivial
  | .expire _ => .isTrue trivial

/-! ## What the operations do to the front -/

theorem head?_insertByFinish (newTime : TimeEntry) (l : List TimeEntry) :
    (insertByFinish newTime l).head? = some (l.head?.elim newTime fun front =>
      if front.finishTime > newTime.finishTime then newTime else front) := by
  cases l with
  | nil => rfl
  | cons e rest =>
      rw [insertByFinish]
      split <;> simp [*]

theorem mem_insertByFinish {newTime e : TimeEntry} {l : List TimeEntry} :
    e ∈ insertByFinish newTime l ↔ e = newTime ∨ e ∈ l := by
  induction l with
  | nil => simp [insertByFinish]
  | cons a rest ih =>
      rw [insertByFinish]
      split
      · simp
      · simp [ih, or_left_comm]

theorem eraseFinished_suffix (currTime : Int) (l : List TimeEntry) :
    eraseFinished currTime l <:+ l := by
  induction l with
  | nil => exact List.suffix_rfl
  | cons e rest ih =>
      rw [eraseFinished]
      split
      · exact ih.trans (List.suffix_cons ..)
      · exact List.suffix_rfl

/-- **`killFinishedAlarms`** takes a prefix off. -/
theorem killFinishedAlarms_suffix (alive : Int → Bool) (killOk : Bool) (currTime : Int)
    (times : List TimeEntry) :
    (killFinishedAlarms alive killOk currTime times).times <:+ times := by
  cases times with
  | nil => exact List.suffix_rfl
  | cons front rest =>
      rw [killFinishedAlarms]
      split
      · exact List.suffix_rfl
      split
      · exact List.suffix_rfl
      · exact eraseFinished_suffix currTime (front :: rest)

theorem lt_of_head?_eraseFinished {currTime : Int} {l : List TimeEntry} {e : TimeEntry}
    (h : e ∈ (eraseFinished currTime l).head?) : currTime < e.finishTime := by
  induction l with
  | nil => simp [eraseFinished] at h
  | cons a rest ih =>
      rw [eraseFinished] at h
      split at h
      · exact ih h
      · obtain rfl : a = e := by simpa using h
        omega

/-! ## The alarm is armed -/

/-- While every `timeout` fits: the entries were started in the past, for a
positive time, and the alarm is pending for the front one exactly. -/
structure Timer.Good (t : Timer) : Prop where
  started : ∀ e ∈ t.times, e.initTime ≤ t.now
  positive : ∀ e ∈ t.times, e.initTime < e.finishTime
  pending : ∀ front ∈ t.times.head?, t.pending = some front.finishTime

theorem Timer.start_good (now : Int) : (Timer.start now).Good := by
  constructor <;> simp [Timer.start]

theorem Timer.Good.armed {t : Timer} (h : t.Good) : t.Armed :=
  fun front hf => ⟨front.finishTime, h.pending front hf, le_rfl⟩

/-- After a `timeout` the alarm is pending for the earlier of the two, if
the command fits, and for later than the front entry if it does not. -/
theorem Timer.Good.timeout {t : Timer} (h : t.Good) (cmd : Nat) (pid : Int) {duration : Int}
    (hd : 0 < duration) :
    (t.Fits (.timeout cmd pid duration) → (t.timeout cmd pid duration).Good) ∧
    (¬t.Fits (.timeout cmd pid duration) → ¬(t.timeout cmd pid duration).Armed) := by
  have hmem : ∀ e ∈ (t.timeout cmd pid duration).times,
      e = ⟨pid, cmd, t.now, t.now + duration⟩ ∨ e ∈ t.times :=
    fun e he => mem_insertByFinish.mp he
  have hstarted : ∀ e ∈ (t.timeout cmd pid duration).times, e.initTime ≤ t.now := by
    intro e he
    rcases hmem e he with rfl | he
    · exact le_rfl
    · exact h.started e he
  have hpositive : ∀ e ∈ (t.timeout cmd pid duration).times, e.initTime < e.finishTime := by
    intro e he
    rcases hmem e he with rfl | he
    · exact Int.lt_add_of_pos_right _ hd
    · exact h.positive e he
  have hhead := head?_insertByFinish ⟨pid, cmd, t.now, t.now + duration⟩ t.times
  have hnew : alarm t.now duration = some (t.now + duration) := if_neg (by omega)
  cases hl : t.times with
  | nil =>
      -- the first entry arms the alarm for itself
      refine ⟨fun _ => ⟨hstarted, hpositive, ?_⟩, fun hn => absurd ?_ hn⟩
      · intro front hf
        rw [Timer.timeout, addToTimesList, hl] at hf
        obtain rfl : _ = front := by simpa [insertByFinish] using hf
        simp [Timer.timeout, rearms, getClosestAlarm, hl, hnew]
      · simp [Timer.Fits, hl]
  | cons front rest =>
      have hfront : front ∈ t.times := by simp [hl]
      have hinit := h.started front hfront
      have hpos := h.positive front hfront
      have hpend : t.pending = some front.finishTime := h.pending front (by simp [hl])
      have hrearms : rearms t.times duration = decide (getDuration front > duration) := by
        have : getDuration front ≠ 0 := by
          rw [getDuration]
          omega
        simp [rearms, getClosestAlarm, hl, this]
      have hfits : t.Fits (.timeout cmd pid duration) ↔
          (duration < getDuration front → t.now + duration ≤ front.finishTime) := by
        simp [Timer.Fits, hl]
      rw [hl, List.head?_cons, Option.elim_some] at hhead
      have hhead' : (t.timeout cmd pid duration).times.head? = some
          (if front.finishTime > t.now + duration then ⟨pid, cmd, t.now, t.now + duration⟩
            else front) := by
        rw [Timer.timeout, addToTimesList, hl, hhead]
      rw [hfits]
      refine ⟨fun hfit => ⟨hstarted, hpositive, ?_⟩, fun hn => ?_⟩
      · intro f hf
        rw [hhead', Option.mem_some_iff] at hf
        subst hf
        change (if rearms t.times duration then alarm t.now duration else t.pending) = _
        rw [hrearms, hnew, hpend]
        rw [getDuration] at hfit ⊢
        split <;> split <;> simp_all <;> omega
      · -- re-armed for the new command, which ends after the front entry
        obtain ⟨hlt, hgt⟩ := Classical.not_imp.mp hn
        intro harmed
        rw [if_neg (by omega)] at hhead'
        obtain ⟨p, hp, hle⟩ := harmed front hhead'
        change p ∈ (if rearms t.times duration then alarm t.now duration else t.pending) at hp
        rw [hrearms, if_pos (by simpa using hlt), hnew, Option.mem_some_iff] at hp
        omega

/-- The handler re-arms for the new front entry. -/
theorem Timer.Good.expire {t : Timer} (h : t.Good) (alive : Int → Bool)
    (hexp : ∃ p ∈ t.pending, p ≤ t.now) : (t.expire alive).Good := by
  obtain ⟨p, hp, hle⟩ := hexp
  cases hl : t.times with
  | nil =>
      rw [Timer.expire, hl]
      constructor <;> simp [killFinishedAlarms]
  | cons front rest =>
      have hpend : t.pending = some front.finishTime := h.pending front (by simp [hl])
      have hfinish : front.finishTime = p := by simpa [hpend] using hp
      have hfired : killFinishedAlarms alive true t.now t.times =
          ⟨eraseFinished t.now t.times, if alive front.pid then some front.pid else none,
            (eraseFinished t.now t.times).head?.map fun e => e.finishTime - t.now⟩ := by
        rw [hl, killFinishedAlarms, if_neg (by omega)]
        simp
      have hsub : ∀ e ∈ eraseFinished t.now t.times, e ∈ t.times :=
        fun e he => (eraseFinished_suffix t.now t.times).subset he
      rw [Timer.expire, hfired]
      refine ⟨fun e he => h.started e (hsub e he), fun e he => h.positive e (hsub e he), ?_⟩
      intro f hf
      have hlt := lt_of_head?_eraseFinished hf
      change (((eraseFinished t.now t.times).head?.map fun e => e.finishTime - t.now).bind
        (alarm t.now)) = _
      rw [Option.mem_def.mp hf, Option.map_some, Option.bind_some, alarm, if_neg (by omega)]
      congr 1
      omega

/-- One step from a good state: good again when it fits, unarmed when not. -/
theorem Timer.Good.step {t t' : Timer} {e : Event} (h : t.Good) (hs : t.step e = .ok t') :
    (t.Fits e → t'.Good) ∧ (¬t.Fits e → ¬t'.Armed) := by
  cases e with
  | tick seconds =>
      obtain rfl : _ = t' := by simpa [Timer.step] using hs
      refine ⟨fun _ => ⟨fun e he => ?_, h.positive, h.pending⟩, fun hn => absurd trivial hn⟩
      have : e.initTime ≤ t.now := h.started e he
      change e.initTime ≤ t.now + seconds
      omega
  | timeout cmd pid duration =>
      rw [Timer.step] at hs
      split at hs
      · rename_i hd
        obtain rfl : _ = t' := by simpa using hs
        exact h.timeout cmd pid hd
      · cases hs
  | expire alive =>
      rw [Timer.step] at hs
      split at hs
      · rename_i hexp
        obtain rfl : _ = t' := by simpa using hs
        exact ⟨fun _ => h.expire alive hexp, fun hn => absurd trivial hn⟩
      · cases hs

/-- Every state the run passes through is armed. -/
def Timer.AlwaysArmed (t : Timer) (es : List Event) : Prop :=
  ∀ es', es' <+: es → ∀ t', runFrom Timer.step t es' = .ok t' → t'.Armed

theorem Timer.Good.alwaysArmed_iff {es : List Event} :
    ∀ {t t' : Timer}, t.Good → runFrom Timer.step t es = .ok t' →
      (t.AlwaysArmed es ↔ Along Timer.step Timer.Fits t es) := by
  induction es with
  | nil =>
      intro t t' h _
      refine ⟨fun _ => trivial, fun _ es' hes' t'' hrun => ?_⟩
      obtain rfl := List.prefix_nil.mp hes'
      obtain rfl : t = t'' := by simpa [runFrom] using hrun
      exact h.armed
  | cons e es ih =>
      intro t t' h hrun
      rw [runFrom] at hrun
      cases hse : t.step e with
      | error f => simp [hse] at hrun
      | ok u =>
          rw [hse] at hrun
          obtain ⟨hfit, hunfit⟩ := h.step hse
          have hcons : ∀ es' t'', runFrom Timer.step t (e :: es') = .ok t'' ↔
              runFrom Timer.step u es' = .ok t'' := by
            intro es' t''
            rw [runFrom, hse]
          rw [Along, hse]
          constructor
          · intro hall
            have hf : t.Fits e := by
              by_contra hn
              refine hunfit hn (hall [e] (by simp) u ?_)
              rw [hcons]
              rfl
            refine ⟨hf, (ih (hfit hf) hrun).mp fun es' hes' t'' hrun' => ?_⟩
            exact hall (e :: es') (List.cons_prefix_cons.mpr ⟨rfl, hes'⟩) t''
              ((hcons es' t'').mpr hrun')
          · rintro ⟨hf, hrest⟩ es' hes' t'' hrun'
            cases es' with
            | nil =>
                obtain rfl : t = t'' := by simpa [runFrom] using hrun'
                exact h.armed
            | cons e' es' =>
                obtain ⟨rfl, hes''⟩ := List.cons_prefix_cons.mp hes'
                exact (ih (hfit hf) hrun).mpr hrest es' hes'' t'' ((hcons es' t'').mp hrun')

/-- **The alarm is armed for the first deadline** in every state of a run
exactly when every `timeout` of the run fits. -/
theorem alarm_armed (now : Int) (es : List Event) (t : Timer)
    (hrun : runFrom Timer.step (.start now) es = .ok t) :
    (Timer.start now).AlwaysArmed es ↔ Along Timer.step Timer.Fits (.start now) es :=
  (Timer.start_good now).alwaysArmed_iff hrun

/-- `timeout 10`, five seconds later `timeout 5`: the second ends with the
first, and both deadlines are met by one alarm. -/
theorem alarm_armed_two : (Timer.start 0).AlwaysArmed
    [.timeout 0 100 10, .tick 5, .timeout 1 101 5, .tick 5, .expire fun _ => true] :=
  (alarm_armed 0 _ ⟨10, none, []⟩ (by decide)).mpr (by decide)

/-- `timeout 10`, five seconds later `timeout 8`: the alarm moves from 10 to
13, past the first deadline. -/
theorem alarm_late :
    runFrom Timer.step (.start 0) [.timeout 0 100 10, .tick 5, .timeout 1 101 8] =
      .ok ⟨5, some 13, [⟨100, 0, 0, 10⟩, ⟨101, 1, 5, 13⟩]⟩ ∧
    ¬Timer.Armed ⟨5, some 13, [⟨100, 0, 0, 10⟩, ⟨101, 1, 5, 13⟩]⟩ :=
  ⟨by decide, by decide⟩

end TimesList

end OsAllHw.Shell
