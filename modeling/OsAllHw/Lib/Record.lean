import OsAllHw.Lib.Bytes

/-!
# Records in memory

A record is a block of bytes with fields at fixed offsets, as a C compiler
lays out a `struct`. Reading one field after writing another is a question
about byte ranges; over a set of record addresses that are `Spaced` it
becomes a question about names: a write changes the one field it names of
the one record it names (`load_store`).
-/

namespace Lib

variable {F : Type*}

/-- Where the fields of a record lie. -/
structure Fields (F : Type*) where
  off : F → Nat
  width : F → Nat
  /-- The size of the whole record. -/
  size : Nat
  disjoint : ∀ f g, f ≠ g → off f + width f ≤ off g ∨ off g + width g ≤ off f
  end_le : ∀ f, off f + width f ≤ size

/-- The records at the addresses in `H` do not overlap. -/
def Spaced (n : Nat) (H : Set Nat) : Prop := ∀ p ∈ H, ∀ q ∈ H, p ≠ q → p + n ≤ q ∨ q + n ≤ p

theorem Spaced.mono {n : Nat} {H H' : Set Nat} (hH : Spaced n H) (h : H' ⊆ H) : Spaced n H' :=
  fun p hp q hq => hH p (h hp) q (h hq)

/-- One more record, clear of the others. -/
theorem Spaced.insert {n a : Nat} {H : Set Nat} (hH : Spaced n H)
    (ha : ∀ p ∈ H, p + n ≤ a ∨ a + n ≤ p) : Spaced n (Insert.insert a H) := by
  rintro p (rfl | hp) q (rfl | hq) hne
  · exact absurd rfl hne
  · exact (ha q hq).symm
  · exact ha p hp
  · exact hH p hp q hq hne

/-- All bytes of the records at the addresses in `H`. -/
def recordBytes (n : Nat) (H : Set Nat) : Set Nat := { x | ∃ p ∈ H, p ≤ x ∧ x < p + n }

namespace Fields

variable (r : Fields F) {H : Set Nat} {m m' : Mem} {f g : F} {p q v : Nat}

/-- `p->f`. -/
def load (m : Mem) (f : F) (p : Nat) : Nat := m.loadLE (p + r.off f) (r.width f)

/-- `p->f = v`. -/
def store (m : Mem) (f : F) (p v : Nat) : Mem := m.storeLE (p + r.off f) (r.width f) v

theorem load_lt (m : Mem) (f : F) (p : Nat) : r.load m f p < 256 ^ r.width f :=
  Mem.loadLE_lt _ _ _

/-- Fields of two records that do not overlap. -/
theorem disjoint_of_apart (h : p + r.size ≤ q ∨ q + r.size ≤ p) :
    q + r.off g + r.width g ≤ p + r.off f ∨ p + r.off f + r.width f ≤ q + r.off g := by
  have hf := r.end_le f
  have hg := r.end_le g
  omega

theorem load_store_apart (m : Mem) (h : p + r.size ≤ q ∨ q + r.size ≤ p) :
    r.load (r.store m f p v) g q = r.load m g q :=
  Mem.loadLE_storeLE_of_disjoint _ (r.disjoint_of_apart h)

/-- **Field update.** -/
theorem load_store [DecidableEq F] (hH : Spaced r.size H) (m : Mem) (hp : p ∈ H) (hq : q ∈ H)
    (hv : v < 256 ^ r.width f) :
    r.load (r.store m f p v) g q = if q = p ∧ g = f then v else r.load m g q := by
  by_cases hpq : q = p
  · subst hpq
    by_cases hfg : g = f
    · subst hfg
      simpa [load, store] using Nat.mod_eq_of_lt hv
    · have hd := r.disjoint f g (Ne.symm hfg)
      simp only [hfg, and_false, if_false]
      exact Mem.loadLE_storeLE_of_disjoint _ (by omega)
  · simp only [hpq, false_and, if_false]
    exact r.load_store_apart m (hH p hp q hq (Ne.symm hpq))

/-- A store stays inside its record. -/
theorem store_of_outside (m : Mem) {x : Nat} (hp : p ∈ H) (hx : x ∉ recordBytes r.size H) :
    r.store m f p v x = m x := by
  have hf := r.end_le f
  refine Mem.storeLE_of_outside _ ?_
  by_contra hin
  exact hx ⟨p, hp, by omega, by omega⟩

/-- A record depends on its own bytes only. -/
theorem load_congr (h : ∀ x, p ≤ x → x < p + r.size → m' x = m x) :
    r.load m' f p = r.load m f p := by
  have hf := r.end_le f
  exact Mem.loadLE_congr fun x h1 h2 => h x (by omega) (by omega)

end Fields

end Lib
