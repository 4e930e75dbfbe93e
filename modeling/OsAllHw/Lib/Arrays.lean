import OsAllHw.Lib.Simulate

/-!
# Arrays on a heap

What an allocator is for: an array for each pointer that a client holds. A new
array has the length asked for, one that gets another length keeps its front
part, and an element is what was last stored there. Where the arrays are is
up to the allocator, as long as a new one is not where another one is.

`Serves` is what an allocator has to show for one call. `Serves.shows` turns it
into a step of the arrays, and `Shows.runs` does so for whole runs.
-/

namespace Lib

namespace Arrays

variable {β : Type}

/-! ## Arrays -/

/-- The arrays by their pointers; `none` is an element that was never stored. -/
abbrev State (β : Type) := Nat → Option (List (Option β))

def State.init : State β := fun _ => none

/-- What a client can ask for; the pointer 0 is `NULL`. -/
inductive Op (β : Type) where
  | alloc (n : Nat) (init : Option β)
  | resize (p n : Nat)
  | release (p : Nat)
  | store (p i : Nat) (b : β)
  deriving DecidableEq

/-- The front part, filled up to `n` elements. -/
def resized (l : List (Option β)) (n : Nat) : List (Option β) :=
  l.take n ++ List.replicate (n - l.length) none

/-- The array of `p` goes, and `q` gets `l`. -/
def State.replace (σ : State β) (p q : Nat) (l : List (Option β)) : State β :=
  Function.update (Function.update σ p none) q (some l)

/-- The arrays after a call that returned `q`; a `NULL` changes nothing. -/
def State.next (σ : State β) : Op β → Nat → State β
  | .alloc n init, q => if q = 0 then σ else σ.replace q q (List.replicate n init)
  | .resize p n, q => if q = 0 then σ else σ.replace p q (resized ((σ p).getD []) n)
  | .release p, _ => Function.update σ p none
  | .store p i b, _ => Function.update σ p ((σ p).map fun l => l.set i (some b))

/-- What `q` may be: no pointer to another array. -/
def State.Fits (σ : State β) : Op β → Nat → Prop
  | .alloc _ _, q => q = 0 ∨ (σ q).isNone
  | .resize p _, q => q = 0 ∨ q = p ∨ (σ q).isNone
  | .release _, _ => True
  | .store p _ _, _ => (σ p).isSome

instance (σ : State β) : (op : Op β) → (q : Nat) → Decidable (σ.Fits op q)
  | .alloc _ _, _ => inferInstanceAs (Decidable (_ ∨ _))
  | .resize _ _, _ => inferInstanceAs (Decidable (_ ∨ _))
  | .release _, _ => .isTrue trivial
  | .store _ _ _, _ => inferInstanceAs (Decidable (_ = _))

/-- One call with the pointer it returned. -/
def call (σ : State β) (c : Op β × Nat) : Except Unit (State β) :=
  if σ.Fits c.1 c.2 then .ok (σ.next c.1 c.2) else .error ()

theorem call_ok {σ : State β} {op : Op β} {q : Nat} (h : σ.Fits op q) :
    call σ (op, q) = .ok (σ.next op q) := if_pos h

section Resized

variable {l : List (Option β)} {n i : Nat}

theorem length_resized (l : List (Option β)) (n : Nat) : (resized l n).length = n := by
  rw [resized, List.length_append, List.length_take, List.length_replicate]
  omega

/-- What is stored in an array of another length was stored in the old one. -/
theorem resized_stored {b : β} (h : (resized l n)[i]? = some (some b)) :
    l[i]? = some (some b) ∧ i < min l.length n := by
  rw [resized, List.getElem?_append] at h
  split at h
  · rename_i hi
    rw [List.length_take] at hi
    rw [List.getElem?_take_of_lt (by omega)] at h
    exact ⟨h, by omega⟩
  · rw [List.getElem?_replicate] at h
    split at h <;> cases h

theorem replicate_stored {init : Option β} {b : β}
    (h : (List.replicate n init)[i]? = some (some b)) : i < n ∧ init = some b := by
  rw [List.getElem?_replicate] at h
  split at h
  · rename_i hi
    exact ⟨hi, Option.some.inj h⟩
  · cases h

end Resized

/-! ## What a client sees -/

/-- A heap as a client sees it: its pointers, the room behind them, and the
contents. -/
structure View (β : Type) where
  live : List Nat
  size : Nat → Nat
  mem : Nat → β

/-- The block of `p` is where it was, with the same size and contents. -/
structure Same (v v' : View β) (p : Nat) : Prop where
  live : p ∈ v'.live
  size : v'.size p = v.size p
  bytes : ∀ i < v.size p, v'.mem (p + i) = v.mem (p + i)

/-- The view holds the arrays. -/
structure Shows (v : View β) (σ : State β) : Prop where
  live : ∀ p, p ∈ v.live ↔ (σ p).isSome
  room : ∀ p l, σ p = some l → l.length ≤ v.size p
  stored : ∀ p l i b, σ p = some l → l[i]? = some (some b) → v.mem (p + i) = b

/-- **What an allocator has to show** for one call. -/
inductive Serves (v : View β) : Op β → Nat → View β → Prop where
  | null {v' : View β} {n : Nat} {init : Option β} (hlive : ∀ x, x ∈ v'.live ↔ x ∈ v.live)
      (hothers : ∀ x ∈ v.live, Same v v' x) : Serves v (.alloc n init) 0 v'
  | kept {v' : View β} {p n : Nat} (hlive : ∀ x, x ∈ v'.live ↔ x ∈ v.live)
      (hothers : ∀ x ∈ v.live, Same v v' x) : Serves v (.resize p n) 0 v'
  | alloc {v' : View β} {n q : Nat} {init : Option β} (hq : q ≠ 0) (hnew : q ∉ v.live)
      (hlive : ∀ x, x ∈ v'.live ↔ x = q ∨ x ∈ v.live) (hothers : ∀ x ∈ v.live, Same v v' x)
      (hroom : n ≤ v'.size q) (hinit : ∀ b, init = some b → ∀ i < n, v'.mem (q + i) = b) :
      Serves v (.alloc n init) q v'
  /-- In place or elsewhere; the old pointer may be `NULL`. -/
  | resize {v' : View β} {p n q : Nat} (hq : q ≠ 0) (hnew : q = p ∨ q ∉ v.live)
      (hlive : ∀ x, x ∈ v'.live ↔ x = q ∨ x ∈ v.live ∧ x ≠ p)
      (hothers : ∀ x ∈ v.live, x ≠ p → Same v v' x) (hroom : n ≤ v'.size q)
      (hmoved : p ∈ v.live → ∀ i < min (v.size p) n, v'.mem (q + i) = v.mem (p + i)) :
      Serves v (.resize p n) q v'
  | release {v' : View β} {p : Nat} (hlive : ∀ x, x ∈ v'.live ↔ x ∈ v.live ∧ x ≠ p)
      (hothers : ∀ x ∈ v.live, x ≠ p → Same v v' x) : Serves v (.release p) 0 v'
  | store {v' : View β} {p i : Nat} {b : β} (hp : p ∈ v.live)
      (hlive : ∀ x, x ∈ v'.live ↔ x ∈ v.live) (hothers : ∀ x ∈ v.live, x ≠ p → Same v v' x)
      (hroom : v'.size p = v.size p) (hbyte : v'.mem (p + i) = b)
      (hrest : ∀ j < v.size p, j ≠ i → v'.mem (p + j) = v.mem (p + j)) :
      Serves v (.store p i b) 0 v'

section Shows

variable {v v' : View β} {σ : State β} {op : Op β} {p q : Nat} {l : List (Option β)}

theorem Shows.init {v : View β} (h : v.live = []) : Shows v State.init where
  live p := by simp [h, State.init]
  room p l hp := by cases hp
  stored p l i b hp := by cases hp

/-- A block that is as it was shows the array it showed. -/
theorem Shows.of_same (h : Shows v σ) (hsame : Same v v' p) (hl : σ p = some l) :
    l.length ≤ v'.size p ∧ ∀ (i : Nat) (b : β), l[i]? = some (some b) → v'.mem (p + i) = b := by
  have hroom := h.room p l hl
  refine ⟨hroom.trans hsame.size.ge, fun i b hi => ?_⟩
  have hlt := (List.getElem?_eq_some_iff.mp hi).1
  rw [hsame.bytes i (by omega)]
  exact h.stored p l i b hl hi

/-- **The frame rule**: one array goes, one comes, and the others are as they
were. -/
theorem Shows.replace (h : Shows v σ) (hlive : ∀ x, x ∈ v'.live ↔ x = q ∨ x ∈ v.live ∧ x ≠ p)
    (hothers : ∀ x ∈ v.live, x ≠ p → x ≠ q → Same v v' x) (hroom : l.length ≤ v'.size q)
    (hstored : ∀ (i : Nat) (b : β), l[i]? = some (some b) → v'.mem (q + i) = b) :
    Shows v' (σ.replace p q l) := by
  have hcases : ∀ x l', σ.replace p q l x = some l' →
      x = q ∧ l' = l ∨ σ x = some l' ∧ Same v v' x := by
    intro x l' hx
    by_cases hxq : x = q
    · subst hxq
      rw [State.replace, Function.update_self] at hx
      exact .inl ⟨rfl, (Option.some.inj hx).symm⟩
    · rw [State.replace, Function.update_of_ne hxq] at hx
      by_cases hxp : x = p
      · subst hxp
        rw [Function.update_self] at hx
        cases hx
      · rw [Function.update_of_ne hxp] at hx
        have hlive' := (h.live x).mpr (by rw [hx]; rfl)
        exact .inr ⟨hx, hothers x hlive' hxp hxq⟩
  refine ⟨fun x => ?_, fun x l' hx => ?_, fun x l' i b hx hi => ?_⟩
  · rw [hlive x, h.live x, State.replace]
    by_cases hxq : x = q
    · simp [hxq]
    · rw [Function.update_of_ne hxq]
      by_cases hxp : x = p
      · subst hxp
        simp [hxq]
      · simp [hxq, hxp]
  · obtain ⟨rfl, rfl⟩ | ⟨hx', hsame⟩ := hcases x l' hx
    · exact hroom
    · exact (h.of_same hsame hx').1
  · obtain ⟨rfl, rfl⟩ | ⟨hx', hsame⟩ := hcases x l' hx
    · exact hstored i b hi
    · exact (h.of_same hsame hx').2 i b hi

theorem Shows.same (h : Shows v σ) (hlive : ∀ x, x ∈ v'.live ↔ x ∈ v.live)
    (hothers : ∀ x ∈ v.live, Same v v' x) : Shows v' σ := by
  have hsame : ∀ x l, σ x = some l → Same v v' x := fun x l hx =>
    hothers x ((h.live x).mpr (by rw [hx]; rfl))
  exact ⟨fun x => (hlive x).trans (h.live x), fun x l hx => (h.of_same (hsame x l hx) hx).1,
    fun x l i b hx => (h.of_same (hsame x l hx) hx).2 i b⟩

theorem Shows.release (h : Shows v σ) (hlive : ∀ x, x ∈ v'.live ↔ x ∈ v.live ∧ x ≠ p)
    (hothers : ∀ x ∈ v.live, x ≠ p → Same v v' x) : Shows v' (Function.update σ p none) := by
  have hsame : ∀ x l, Function.update σ p none x = some l → σ x = some l ∧ Same v v' x := by
    intro x l hx
    by_cases hxp : x = p
    · subst hxp
      rw [Function.update_self] at hx
      cases hx
    · rw [Function.update_of_ne hxp] at hx
      exact ⟨hx, hothers x ((h.live x).mpr (by rw [hx]; rfl)) hxp⟩
  refine ⟨fun x => ?_, fun x l hx => ?_, fun x l i b hx => ?_⟩
  · rw [hlive x, h.live x]
    by_cases hxp : x = p <;> simp [hxp]
  · exact (h.of_same (hsame x l hx).2 (hsame x l hx).1).1
  · exact (h.of_same (hsame x l hx).2 (hsame x l hx).1).2 i b

/-- **One call** of an allocator that serves it. -/
theorem Serves.shows (hserves : Serves v op q v') (h : Shows v σ) :
    ∃ σ', call σ (op, q) = .ok σ' ∧ Shows v' σ' := by
  have hnone : ∀ x, x ∉ v.live → (σ x).isNone := by
    intro x hx
    rw [Option.isNone_iff_eq_none, ← Option.not_isSome_iff_eq_none, ← h.live]
    exact hx
  cases hserves with
  | null hlive hothers => exact ⟨_, call_ok (.inl rfl), h.same hlive hothers⟩
  | kept hlive hothers => exact ⟨_, call_ok (.inl rfl), h.same hlive hothers⟩
  | alloc hq hnew hlive hothers hroom hinit =>
      refine ⟨_, call_ok (.inr (hnone _ hnew)), ?_⟩
      rw [State.next, if_neg hq]
      refine h.replace (fun x => ?_) (fun x hx _ _ => hothers x hx) ?_ fun i b hi => ?_
      · rw [hlive x]
        refine or_congr_right (and_iff_left_of_imp ?_).symm
        rintro hx rfl
        exact hnew hx
      · rwa [List.length_replicate]
      · obtain ⟨hlt, hb⟩ := replicate_stored hi
        exact hinit b hb i hlt
  | resize hq hnew hlive hothers hroom hmoved =>
      rename_i p n
      refine ⟨_, call_ok (.inr (hnew.imp_right (hnone _))), ?_⟩
      rw [State.next, if_neg hq]
      refine h.replace hlive (fun x hx hxp _ => hothers x hx hxp) ?_ fun i b hi => ?_
      · rwa [length_resized]
      · obtain ⟨hold, hlt⟩ := resized_stored hi
        cases hp : σ p with
        | none =>
            rw [hp] at hold
            cases hold
        | some l =>
            rw [hp] at hold hlt
            have hroom := h.room p l hp
            have hlt' : i < min l.length n := hlt
            rw [hmoved ((h.live p).mpr (by rw [hp]; rfl)) i (by omega)]
            exact h.stored p l i b hp hold
  | release hlive hothers => exact ⟨_, call_ok trivial, h.release hlive hothers⟩
  | store hp hlive hothers hroom hbyte hrest =>
      rename_i p i b
      obtain ⟨l, hl⟩ := Option.isSome_iff_exists.mp ((h.live p).mp hp)
      refine ⟨_, call_ok ((h.live p).mp hp), ?_⟩
      have hnext : σ.next (.store p i b) 0 = σ.replace p p (l.set i (some b)) := by
        simp [State.next, State.replace, hl]
      have hle := h.room p l hl
      rw [hnext]
      refine h.replace (fun x => ?_) (fun x hx hxp _ => hothers x hx hxp) ?_ fun j c hj => ?_
      · rw [hlive x]
        by_cases hxp : x = p <;> simp [hxp, hp]
      · rwa [List.length_set, hroom]
      · rw [List.getElem?_set] at hj
        by_cases hij : i = j
        · subst hij
          rw [if_pos rfl] at hj
          split at hj
          · exact hbyte.trans (Option.some.inj (Option.some.inj hj))
          · cases hj
        · rw [if_neg hij] at hj
          have hlt := (List.getElem?_eq_some_iff.mp hj).1
          rw [hrest j (by omega) (Ne.symm hij)]
          exact h.stored p l j c hl hj

end Shows

/-- A new array without an old one. -/
theorem Serves.resizes {v v' : View β} {m n q : Nat}
    (h : Serves v (.alloc m none) q v') (hnull : 0 ∉ v.live) (hn : n ≤ m) :
    Serves v (.resize 0 n) q v' := by
  cases h with
  | null hlive hothers => exact .kept hlive hothers
  | alloc hq hnew hlive hothers hroom hinit =>
      refine .resize hq (.inr hnew) (fun x => ?_) (fun x hx _ => hothers x hx) (hn.trans hroom)
        fun h0 => absurd h0 hnull
      rw [hlive x]
      refine or_congr_right (and_iff_left_of_imp ?_).symm
      rintro hx rfl
      exact hnull hx

/-- **Whole runs** of an allocator that serves every call: the arrays can be
read off the heap at the end. -/
theorem Shows.runs {σ ε φ : Type} {step : σ → ε → Except φ σ} {answer : σ → ε → Op β × Nat}
    (view : σ → View β) {I : σ → Prop} {F : φ → Prop} {P : σ → ε → Prop}
    (hstep : ∀ s e, I s → P s e → Outcome (fun s' => I s' ∧
      Serves (view s) (answer s e).1 (answer s e).2 (view s')) F (step s e))
    {s : σ} {t : State β} {es : List ε} (hs : I s) (ht : Shows (view s) t)
    (hes : Along step P s es) :
    Outcome (fun s' => ∃ t', runFrom call t (transcript step answer s es) = .ok t' ∧
      Shows (view s') t') F (runFrom step s es) := by
  have hsim : ∀ s t e, (I s ∧ Shows (view s) t) → P s e → Outcome (fun s' => ∃ t',
      call t (answer s e) = .ok t' ∧ (I s' ∧ Shows (view s') t')) F (step s e) := by
    intro s t e h he
    refine (hstep s e h.1 he).imp (fun s' hs' => ?_) fun _ hf => hf
    obtain ⟨t', hcall, hshows⟩ := hs'.2.shows h.2
    exact ⟨t', hcall, hs'.1, hshows⟩
  exact (runFrom_simulates hsim ⟨hs, ht⟩ hes).imp
    (fun s' ⟨t', hrun, _, hshows⟩ => ⟨t', hrun, hshows⟩) fun _ hf => hf

end Arrays

end Lib
