import Mathlib

/-!
# Byte-addressed memory with little-endian words

A memory is a total function from addresses to bytes. `loadLE`/`storeLE`
read and write a `w`-byte little-endian number at an arbitrary, possibly
unaligned, address. The three facts every client needs are here: what is
stored is what is loaded (modulo the width), a store leaves every byte
outside its range alone, and a load depends only on the bytes in its
range. `copyBytes` and `fillBytes` are `memmove` and `memset`.
-/

namespace Lib

/-- Byte-addressed memory. -/
abbrev Mem := Nat → UInt8

namespace Mem

/-- The `w`-byte little-endian number at address `a`. -/
def loadLE (m : Mem) : Nat → Nat → Nat
  | _, 0 => 0
  | a, w + 1 => (m a).toNat + 256 * loadLE m (a + 1) w

/-- Store the low `w` bytes of `v` at address `a`. -/
def storeLE (m : Mem) (a w v : Nat) : Mem := fun x =>
  if a ≤ x ∧ x < a + w then UInt8.ofNat (v / 256 ^ (x - a)) else m x

/-- `memmove`: all of the source is read before anything is written, so
overlapping ranges are copied intact. -/
def copyBytes (m : Mem) (dst src n : Nat) : Mem := fun x =>
  if dst ≤ x ∧ x < dst + n then m (src + (x - dst)) else m x

/-- `memset`. -/
def fillBytes (m : Mem) (a n : Nat) (b : UInt8) : Mem := fun x =>
  if a ≤ x ∧ x < a + n then b else m x

theorem loadLE_congr {m m' : Mem} {a w : Nat}
    (h : ∀ x, a ≤ x → x < a + w → m' x = m x) : m'.loadLE a w = m.loadLE a w := by
  induction w generalizing a with
  | zero => rfl
  | succ w ih =>
      simp only [loadLE]
      rw [h a (by omega) (by omega), ih fun x h1 h2 => h x (by omega) (by omega)]

theorem storeLE_of_outside (m : Mem) {a w v x : Nat} (h : x < a ∨ a + w ≤ x) :
    m.storeLE a w v x = m x :=
  if_neg (by omega)

theorem copyBytes_of_outside (m : Mem) {dst src n x : Nat} (h : x < dst ∨ dst + n ≤ x) :
    m.copyBytes dst src n x = m x :=
  if_neg (by omega)

theorem fillBytes_of_outside (m : Mem) {a n x : Nat} {b : UInt8} (h : x < a ∨ a + n ≤ x) :
    m.fillBytes a n b x = m x :=
  if_neg (by omega)

/-- A load from a range whose bytes are the little-endian digits of `v`. -/
theorem loadLE_digits {m : Mem} {a w v : Nat}
    (h : ∀ i, i < w → m (a + i) = UInt8.ofNat (v / 256 ^ i)) :
    m.loadLE a w = v % 256 ^ w := by
  induction w generalizing a v with
  | zero => simp [loadLE, Nat.mod_one]
  | succ w ih =>
      have h0 : m a = UInt8.ofNat v := by simpa using h 0 (by omega)
      have hrest : m.loadLE (a + 1) w = v / 256 % 256 ^ w := by
        refine ih fun i hi => ?_
        rw [Nat.div_div_eq_div_mul, ← Nat.pow_succ', ← h (i + 1) (by omega)]
        congr 1; omega
      rw [loadLE, hrest, h0, Nat.pow_succ', Nat.mod_mul]
      simp

@[simp] theorem loadLE_storeLE_self (m : Mem) (a w v : Nat) :
    (m.storeLE a w v).loadLE a w = v % 256 ^ w := by
  refine loadLE_digits fun i hi => ?_
  rw [storeLE, if_pos (by omega)]
  congr 3; omega

theorem loadLE_storeLE_of_disjoint (m : Mem) {a w v b u : Nat}
    (h : b + u ≤ a ∨ a + w ≤ b) : (m.storeLE a w v).loadLE b u = m.loadLE b u :=
  loadLE_congr fun _ _ _ => storeLE_of_outside m (by omega)

theorem loadLE_lt (m : Mem) (a w : Nat) : m.loadLE a w < 256 ^ w := by
  induction w generalizing a with
  | zero => simp [loadLE]
  | succ w ih =>
      have hb : (m a).toNat < 256 := UInt8.toNat_lt (m a)
      have hrest := ih (a + 1)
      rw [loadLE, Nat.pow_succ]
      omega

end Mem

/-! ## Address ranges -/

/-- Two ranges, each a start and a length, do not overlap. -/
def Apart (r t : Nat × Nat) : Prop := r.1 + r.2 ≤ t.1 ∨ t.1 + t.2 ≤ r.1

theorem Apart.symm {r t : Nat × Nat} (h : Apart r t) : Apart t r := Or.symm h

/-- The addresses of disjoint ranges, counted. -/
theorem exists_card_eq_sum {l : List (Nat × Nat)} (h : l.Pairwise Apart) :
    ∃ S : Finset Nat, S.card = (l.map Prod.snd).sum ∧
      ∀ x ∈ S, ∃ r ∈ l, r.1 ≤ x ∧ x < r.1 + r.2 := by
  induction l with
  | nil => exact ⟨∅, rfl, by simp⟩
  | cons r l ih =>
      obtain ⟨hr, hl⟩ := List.pairwise_cons.mp h
      obtain ⟨S, hcard, hmem⟩ := ih hl
      have hdisj : Disjoint (Finset.Ico r.1 (r.1 + r.2)) S := by
        rw [Finset.disjoint_left]
        intro x hx hxS
        obtain ⟨t, ht, h1, h2⟩ := hmem x hxS
        have hrt := hr t ht
        unfold Apart at hrt
        rw [Finset.mem_Ico] at hx
        omega
      refine ⟨Finset.Ico r.1 (r.1 + r.2) ∪ S, ?_, fun x hx => ?_⟩
      · rw [Finset.card_union_of_disjoint hdisj, Nat.card_Ico, hcard, List.map_cons, List.sum_cons]
        omega
      · rcases Finset.mem_union.mp hx with hx | hx
        · exact ⟨r, by simp, Finset.mem_Ico.mp hx⟩
        · obtain ⟨t, ht, hxt⟩ := hmem x hx
          exact ⟨t, by simp [ht], hxt⟩

/-- Disjoint ranges do not add up to more than the space they lie in. -/
theorem sum_lengths_le {l : List (Nat × Nat)} {n : Nat} (h : l.Pairwise Apart)
    (hn : ∀ r ∈ l, r.1 + r.2 ≤ n) : (l.map Prod.snd).sum ≤ n := by
  obtain ⟨S, hcard, hmem⟩ := exists_card_eq_sum h
  have hsub : S ⊆ Finset.range n := fun x hx => by
    obtain ⟨r, hr, -, h2⟩ := hmem x hx
    exact Finset.mem_range.mpr (h2.trans_le (hn r hr))
  have hle := Finset.card_le_card hsub
  rwa [hcard, Finset.card_range] at hle

end Lib
