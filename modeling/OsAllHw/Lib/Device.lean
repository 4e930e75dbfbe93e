import Mathlib

/-!
# Streams that move in pieces

One call moves as much of a stream as the device likes, or is interrupted, or
fails. A loop around it moves what the caller asked for.
-/

namespace Lib

variable {σ α : Type}

/-- `errno`, as far as a loop tells its values apart. -/
inductive Errno where
  | eintr
  | other
  deriving DecidableEq

/-- What one call does. -/
inductive Answer where
  | fails (errno : Errno)
  /-- It moves up to so many elements. -/
  | moves (k : Nat)
  deriving DecidableEq

/-! ## Reading -/

/-- What is still to be read, and the answers of the next calls; after the
last one a call moves all it was asked for. -/
structure Source (α : Type) where
  stream : List α
  answers : List Answer
  deriving DecidableEq

/-- One call, which asks for `n` elements; only at the end it moves none. -/
def Source.read (s : Source α) (n : Nat) : Except Errno (List α) × Source α :=
  match s.answers with
  | [] => (.ok (s.stream.take n), ⟨s.stream.drop n, []⟩)
  | .fails e :: answers => (.error e, ⟨s.stream, answers⟩)
  | .moves k :: answers =>
      (.ok (s.stream.take (min n (max 1 k))), ⟨s.stream.drop (min n (max 1 k)), answers⟩)

/-- **A device**: what a read gives was there to be read, and is there no
longer. `turns` bounds how often it can still fail. -/
structure Device (σ α : Type) where
  read : σ → Nat → Except Errno (List α) × σ
  unread : σ → List α
  turns : σ → Nat
  moved : ∀ {s : σ} {n : Nat} {l : List α} {s' : σ}, 0 < n → read s n = (.ok l, s') →
    l ++ unread s' = unread s ∧ l.length ≤ n ∧ (l = [] → unread s = []) ∧ turns s' ≤ turns s
  failed : ∀ {s : σ} {n : Nat} {e : Errno} {s' : σ}, 0 < n → read s n = (.error e, s') →
    unread s' = unread s ∧ turns s' < turns s

theorem Source.read_ok {s s' : Source α} {n : Nat} {l : List α} (hn : 0 < n)
    (h : s.read n = (.ok l, s')) :
    l ++ s'.stream = s.stream ∧ l.length ≤ n ∧ (l = [] → s.stream = []) ∧
      s'.answers <:+ s.answers := by
  obtain ⟨stream, answers⟩ := s
  have htake : ∀ k, 0 < k → k ≤ n → (stream.take k).length ≤ n ∧
      (stream.take k = [] → stream = []) := by
    intro k hk hkn
    exact ⟨(List.length_take_le k stream).trans hkn, fun h => by simpa [hk.ne'] using h⟩
  rw [Source.read.eq_def] at h
  cases answers with
  | nil =>
      cases h
      exact ⟨List.take_append_drop n stream, (htake n hn le_rfl).1, (htake n hn le_rfl).2,
        List.suffix_rfl⟩
  | cons a answers =>
      cases a with
      | fails e => cases h
      | moves k =>
          cases h
          have hk := htake (min n (max 1 k)) (by omega) (by omega)
          exact ⟨List.take_append_drop _ stream, hk.1, hk.2, List.suffix_cons _ answers⟩

theorem Source.read_error {s s' : Source α} {n : Nat} {e : Errno}
    (h : s.read n = (.error e, s')) :
    s'.stream = s.stream ∧ s.answers = .fails e :: s'.answers := by
  obtain ⟨stream, answers⟩ := s
  rw [Source.read.eq_def] at h
  cases answers with
  | nil => cases h
  | cons a answers =>
      cases a with
      | fails e =>
          cases h
          exact ⟨rfl, rfl⟩
      | moves k => cases h

/-- A descriptor. -/
def Device.descriptor : Device (Source α) α where
  read := Source.read
  unread := Source.stream
  turns s := s.answers.length
  moved hn h :=
    have hread := Source.read_ok hn h
    ⟨hread.1, hread.2.1, hread.2.2.1, hread.2.2.2.length_le⟩
  failed _ h :=
    have hread := Source.read_error h
    ⟨hread.1, (congrArg List.length hread.2).symm ▸ Nat.lt_succ_self _⟩

/-- `P` lasts as long as the device is read, and only errors with `E` are
met. -/
def Device.Keeps (d : Device σ α) (P : σ → Prop) (E : Errno → Prop) : Prop :=
  ∀ {s n r s'}, 0 < n → P s → d.read s n = (r, s') → P s' ∧ ∀ e, r = .error e → E e

/-- No call fails, but for interruptions. -/
def Source.Steady (s : Source α) : Prop := .fails .other ∉ s.answers

instance (s : Source α) : Decidable s.Steady := inferInstanceAs (Decidable (¬_))

theorem Source.read_answers {s s' : Source α} {n : Nat} {r : Except Errno (List α)}
    (h : s.read n = (r, s')) : s'.answers <:+ s.answers := by
  obtain ⟨stream, answers⟩ := s
  rw [Source.read.eq_def] at h
  cases answers with
  | nil =>
      cases h
      exact List.suffix_rfl
  | cons a answers =>
      cases a with
      | fails e =>
          cases h
          exact List.suffix_cons _ answers
      | moves k =>
          cases h
          exact List.suffix_cons _ answers

theorem Source.Steady.keeps :
    (Device.descriptor : Device (Source α) α).Keeps Source.Steady fun e => e = .eintr := by
  intro s n r s' _ hs h
  refine ⟨fun hmem => hs ((Source.read_answers h).subset hmem), ?_⟩
  rintro e rfl
  cases e with
  | eintr => rfl
  | other =>
      refine absurd ?_ hs
      rw [(Source.read_error h).2]
      exact List.mem_cons_self

/-- **The loop that reads `n` elements**: what it moved, and whether it ended
without an error. An interrupted call is made again. -/
def Device.readn (d : Device σ α) (n : Nat) (s : σ) : (List α × Bool) × σ :=
  if _hn : 0 < n then
    match _h : d.read s n with
    | (.error .eintr, s') => d.readn n s'
    | (.error .other, s') => (([], false), s')
    | (.ok [], s') => (([], true), s')
    | (.ok (a :: l), s') =>
        let rest := d.readn (n - (a :: l).length) s'
        ((a :: l ++ rest.1.1, rest.1.2), rest.2)
  else (([], true), s)
termination_by n + d.turns s
decreasing_by
  · have := (d.failed _hn _h).2
    omega
  · have hmoved := d.moved _hn _h
    simp only [List.length_cons]
    omega

section Readn

variable {d : Device σ α} {n : Nat} {s s' : σ}

@[simp] theorem Device.readn_zero : d.readn 0 s = (([], true), s) := by
  rw [Device.readn, dif_neg (Nat.lt_irrefl 0)]

theorem Device.readn_interrupted (hn : 0 < n) (h : d.read s n = (.error .eintr, s')) :
    d.readn n s = d.readn n s' := by
  rw [Device.readn, dif_pos hn]
  split <;> simp_all

theorem Device.readn_failed (hn : 0 < n) (h : d.read s n = (.error .other, s')) :
    d.readn n s = (([], false), s') := by
  rw [Device.readn, dif_pos hn]
  split <;> simp_all

theorem Device.readn_end (hn : 0 < n) (h : d.read s n = (.ok [], s')) :
    d.readn n s = (([], true), s') := by
  rw [Device.readn, dif_pos hn]
  split <;> simp_all

theorem Device.readn_moved (hn : 0 < n) {l : List α} (hl : l ≠ [])
    (h : d.read s n = (.ok l, s')) :
    d.readn n s = ((l ++ (d.readn (n - l.length) s').1.1, (d.readn (n - l.length) s').1.2),
      (d.readn (n - l.length) s').2) := by
  rw [Device.readn, dif_pos hn]
  split <;> simp_all

/-- **The rule for the loop**: one case for each answer. -/
theorem Device.readn_rule {Q : Nat → σ → (List α × Bool) × σ → Prop}
    (zero : ∀ s, Q 0 s (([], true), s))
    (interrupted : ∀ n s s' r, 0 < n → d.read s n = (.error .eintr, s') → Q n s' r → Q n s r)
    (failed : ∀ n s s', 0 < n → d.read s n = (.error .other, s') → Q n s (([], false), s'))
    (eof : ∀ n s s', 0 < n → d.read s n = (.ok [], s') → Q n s (([], true), s'))
    (moved : ∀ n s s' l r, 0 < n → l ≠ [] → d.read s n = (.ok l, s') →
      Q (n - l.length) s' r → Q n s ((l ++ r.1.1, r.1.2), r.2))
    (n : Nat) (s : σ) : Q n s (d.readn n s) := by
  induction hm : n + d.turns s using Nat.strong_induction_on generalizing n s with
  | _ m ih =>
      subst hm
      rcases Nat.eq_zero_or_pos n with rfl | hn
      · rw [readn_zero]
        exact zero s
      · obtain ⟨r, s', h⟩ : ∃ r s', d.read s n = (r, s') := ⟨_, _, rfl⟩
        cases r with
        | error e =>
            cases e with
            | eintr =>
                have hturns := (d.failed hn h).2
                rw [readn_interrupted hn h]
                exact interrupted n s s' _ hn h (ih _ (by omega) _ _ rfl)
            | other =>
                rw [readn_failed hn h]
                exact failed n s s' hn h
        | ok l =>
            by_cases hl : l = []
            · subst hl
              rw [readn_end hn h]
              exact eof n s s' hn h
            · have hmoved := d.moved hn h
              have hpos := List.length_pos_iff.mpr hl
              rw [readn_moved hn hl h]
              exact moved n s s' l _ hn hl h (ih _ (by omega) _ _ rfl)

/-- Nothing is lost and nothing comes twice, with an error or without. -/
theorem Device.readn_append (n : Nat) (s : σ) :
    (d.readn n s).1.1 ++ d.unread (d.readn n s).2 = d.unread s := by
  refine Device.readn_rule (Q := fun _ s r => r.1.1 ++ d.unread r.2 = d.unread s)
    (fun s => rfl) ?_ ?_ ?_ ?_ n s
  · intro n s s' r hn h hr
    rw [hr, (d.failed hn h).1]
  · intro n s s' hn h
    exact (d.failed hn h).1
  · intro n s s' hn h
    exact (d.moved hn h).1
  · intro n s s' l r hn hl h hr
    rw [List.append_assoc, hr, (d.moved hn h).1]

/-- Without an error the loop took what it was asked for, or all there was. -/
theorem Device.readn_eq (n : Nat) (s : σ) (h : (d.readn n s).1.2 = true) :
    (d.readn n s).1.1 = (d.unread s).take n := by
  refine Device.readn_rule (Q := fun n s r => r.1.2 = true → r.1.1 = (d.unread s).take n)
    (fun s _ => rfl) ?_ ?_ ?_ ?_ n s h
  · intro n s s' r hn h hr
    rw [← (d.failed hn h).1]
    exact hr
  · intro n s s' hn h hfalse
    cases hfalse
  · intro n s s' hn h _
    rw [(d.moved hn h).2.2.1 rfl, List.take_nil]
  · intro n s s' l r hn hl h hr htrue
    obtain ⟨happend, hlen, -, -⟩ := d.moved hn h
    change l ++ r.1.1 = _
    rw [hr htrue, ← happend, List.take_append, List.take_of_length_le hlen]

/-- What lasts while the device is read lasts through the loop. -/
theorem Device.Keeps.readn {P : σ → Prop} {E : Errno → Prop} (hkeeps : d.Keeps P E)
    (hother : ¬E .other) (n : Nat) {s : σ} (hs : P s) :
    (d.readn n s).1.2 = true ∧ P (d.readn n s).2 := by
  refine Device.readn_rule (Q := fun _ s r => P s → r.1.2 = true ∧ P r.2)
    (fun s hs => ⟨rfl, hs⟩) ?_ ?_ ?_ ?_ n s hs
  · exact fun n s s' r hn h hr hs => hr (hkeeps hn hs h).1
  · exact fun n s s' hn h hs => absurd ((hkeeps hn hs h).2 _ rfl) hother
  · exact fun n s s' hn h hs => ⟨rfl, (hkeeps hn hs h).1⟩
  · exact fun n s s' l r hn hl h hr hs => hr (hkeeps hn hs h).1

end Readn

/-! ## Writing -/

/-- What was written, the answers of the next calls, and `errno`, which only a
call that fails sets. -/
structure Sink (α : Type) where
  written : List α
  answers : List Answer
  errno : Errno
  deriving DecidableEq

/-- One call: how much it wrote, or `none` if it failed. -/
def Sink.write (s : Sink α) (l : List α) : Option Nat × Sink α :=
  match s.answers with
  | [] => (some l.length, { s with written := s.written ++ l })
  | .fails e :: answers => (none, { s with answers := answers, errno := e })
  | .moves k :: answers =>
      (some (min k l.length), { s with written := s.written ++ l.take k, answers := answers })

/-- A call that wrote. -/
theorem Sink.write_some {s s' : Sink α} {l : List α} {k : Nat} (h : s.write l = (some k, s')) :
    s'.written = s.written ++ l.take k ∧ k ≤ l.length ∧
      (s'.answers.length < s.answers.length ∨ k = l.length ∧ s'.answers = s.answers) := by
  obtain ⟨written, answers, errno⟩ := s
  rw [Sink.write.eq_def] at h
  cases answers with
  | nil =>
      cases h
      exact ⟨by rw [List.take_length], le_rfl, .inr ⟨rfl, rfl⟩⟩
  | cons a answers =>
      cases a with
      | fails e => cases h
      | moves k =>
          cases h
          exact ⟨by rw [← List.take_eq_take_min], Nat.min_le_right .., .inl (Nat.lt_succ_self _)⟩

theorem Sink.write_none {s s' : Sink α} {l : List α} (h : s.write l = (none, s')) :
    s'.written = s.written ∧ s'.answers.length < s.answers.length := by
  obtain ⟨written, answers, errno⟩ := s
  rw [Sink.write.eq_def] at h
  cases answers with
  | nil => cases h
  | cons a answers =>
      cases a with
      | fails e =>
          cases h
          exact ⟨rfl, Nat.lt_succ_self _⟩
      | moves k => cases h

/-- Calls that write something, or are interrupted. -/
def Sink.Willing (s : Sink α) : Prop := .fails .other ∉ s.answers ∧ .moves 0 ∉ s.answers

instance (s : Sink α) : Decidable s.Willing := inferInstanceAs (Decidable (_ ∧ _))

theorem Sink.Willing.write {s s' : Sink α} {l : List α} {r : Option Nat} (hs : s.Willing)
    (hl : l ≠ []) (h : s.write l = (r, s')) :
    s'.Willing ∧ r ≠ some 0 ∧ (r = none → s'.errno = .eintr) := by
  obtain ⟨written, answers, errno⟩ := s
  have hpos := List.length_pos_iff.mpr hl
  rw [Sink.write.eq_def] at h
  cases answers with
  | nil =>
      cases h
      exact ⟨hs, by simpa using hl, nofun⟩
  | cons a answers =>
      have hrest : .fails .other ∉ answers ∧ .moves 0 ∉ answers :=
        ⟨fun h => hs.1 (List.mem_cons_of_mem a h), fun h => hs.2 (List.mem_cons_of_mem a h)⟩
      cases a with
      | fails e =>
          cases h
          cases e with
          | eintr => exact ⟨hrest, nofun, fun _ => rfl⟩
          | other => exact absurd List.mem_cons_self hs.1
      | moves k =>
          cases h
          refine ⟨hrest, ?_, nofun⟩
          have hk : k ≠ 0 := by
            rintro rfl
            exact hs.2 List.mem_cons_self
          simp only [ne_eq, Option.some.injEq]
          omega

end Lib
