import OsAllHw.Lib.Record
import OsAllHw.Malloc.Code

/-!
# Headers in memory

Headers live in the same bytes as the payloads, so reading one field after
writing another is a question about byte ranges. `Headers H` is the
property that makes it a question about names again: the headers at the
addresses in `H` do not overlap (`Spaced`, as for any records). Over such a
set, a field write changes that field of that header and nothing else
(`get_put`), and a code fragment that writes only the fields `F` of headers
in `H` (`SameOff`) leaves every other field of every header alone.
-/

namespace OsAllHw.Malloc

open Lib

/-- A value that fits a pointer or a `size_t`. -/
def IsWord (v : Nat) : Prop := v < 2 ^ 64

@[simp] theorem isWord_zero : IsWord 0 := Nat.two_pow_pos 64

/-- A set of pairwise disjoint header addresses. -/
structure Headers (H : Set Nat) : Prop where
  pos : ∀ p ∈ H, 0 < p
  word : ∀ p ∈ H, IsWord p
  apart : Spaced metaSize H

theorem Headers.mono {H H' : Set Nat} (hH : Headers H) (h : H' ⊆ H) : Headers H' :=
  ⟨fun p hp => hH.pos p (h hp), fun p hp => hH.word p (h hp), hH.apart.mono h⟩

theorem Headers.zero_notMem {H : Set Nat} (hH : Headers H) : 0 ∉ H :=
  fun h => absurd (hH.pos 0 h) (Nat.lt_irrefl 0)

/-- One more header, clear of the others. -/
theorem Headers.insert {H : Set Nat} (hH : Headers H) {n : Nat} (h0 : 0 < n)
    (hlt : IsWord n) (hn : ∀ p ∈ H, p + metaSize ≤ n ∨ n + metaSize ≤ p) :
    Headers (Insert.insert n H) := by
  refine ⟨?_, ?_, hH.apart.insert hn⟩
  · rintro p (rfl | hp)
    · exact h0
    · exact hH.pos p hp
  · rintro p (rfl | hp)
    · exact hlt
    · exact hH.word p hp

/-! ## Reading one field after writing another -/

/-- The layout of `struct MallocMetadata`. -/
def mallocMetadata : Fields Field where
  off := Field.off
  width := Field.width
  size := metaSize
  disjoint f g h := by cases f <;> cases g <;> simp [Field.off, Field.width] at h ⊢
  end_le f := by cases f <;> decide

theorem Field.end_le (f : Field) : f.off + f.width ≤ metaSize := mallocMetadata.end_le f

theorem get_put_apart (s : Heap) {f g : Field} {p q v : Nat}
    (h : p + metaSize ≤ q ∨ q + metaSize ≤ p) : (s.put f p v).get g q = s.get g q :=
  mallocMetadata.load_store_apart s.mem h

/-- **Field update.** Over disjoint headers a write changes exactly the
field it names. -/
theorem get_put {H : Set Nat} (hH : Headers H) (s : Heap) {f g : Field} {p q v : Nat}
    (hp : p ∈ H) (hq : q ∈ H) (hv : v < 256 ^ f.width) :
    (s.put f p v).get g q = if q = p ∧ g = f then v else s.get g q :=
  mallocMetadata.load_store hH.apart s.mem hp hq hv

/-- `get_put` for the fields that hold a word. -/
theorem get_putWord {H : Set Nat} (hH : Headers H) (s : Heap) {f g : Field} {p q v : Nat}
    (hp : p ∈ H) (hq : q ∈ H) (hv : IsWord v) (hf : f ≠ .isFree) :
    (s.put f p v).get g q = if q = p ∧ g = f then v else s.get g q := by
  have hw : f.width = 8 := by cases f <;> simp [Field.width] at hf ⊢
  exact get_put hH s hp hq (by rw [hw]; exact hv)

/-- `get_put` for `is_free`. -/
theorem get_putFlag {H : Set Nat} (hH : Headers H) (s : Heap) {g : Field} {p q v : Nat}
    (hp : p ∈ H) (hq : q ∈ H) (hv : v ≤ 1) :
    (s.put .isFree p v).get g q = if q = p ∧ g = .isFree then v else s.get g q :=
  get_put hH s hp hq (by simp only [Field.width]; omega)

theorem get_lt (s : Heap) (f : Field) (p : Nat) : s.get f p < 256 ^ f.width :=
  mallocMetadata.load_lt s.mem f p

/-! ## Frames -/

/-- The bytes of the fields `F` of the headers in `H`. -/
def fieldBytes (F : Set Field) (H : Set Nat) : Set Nat :=
  { x | ∃ p ∈ H, ∃ f ∈ F, p + f.off ≤ x ∧ x < p + f.off + f.width }

/-- A byte of a field lies inside the header. -/
theorem fieldBytes_range {F : Set Field} {H : Set Nat} {x : Nat} (h : x ∈ fieldBytes F H) :
    ∃ p ∈ H, p ≤ x ∧ x < p + metaSize := by
  obtain ⟨p, hp, f, -, h1, h2⟩ := h
  have := f.end_le
  exact ⟨p, hp, by omega, by omega⟩

/-- Memory is the same outside `W`. -/
def SameOff (W : Set Nat) (s s' : Heap) : Prop := ∀ x, x ∉ W → s'.mem x = s.mem x

namespace SameOff

variable {W W' : Set Nat} {F : Set Field} {H : Set Nat} {s s' s'' : Heap}

theorem refl (W : Set Nat) (s : Heap) : SameOff W s s := fun _ _ => rfl

theorem trans (h : SameOff W s s') (h' : SameOff W s' s'') : SameOff W s s'' :=
  fun x hx => (h' x hx).trans (h x hx)

theorem mono (hW : W ⊆ W') (h : SameOff W s s') : SameOff W' s s' :=
  fun x hx => h x fun hW' => hx (hW hW')

theorem put (s : Heap) {f : Field} {p : Nat} (v : Nat) (hf : f ∈ F) (hp : p ∈ H) :
    SameOff (fieldBytes F H) s (s.put f p v) := by
  intro x hx
  refine Mem.storeLE_of_outside _ ?_
  by_contra hcon
  exact hx ⟨p, hp, f, hf, by omega, by omega⟩

/-- Fields outside `F` keep their values. -/
theorem get (hH : Headers H) (h : SameOff (fieldBytes F H) s s') {g : Field} {q : Nat}
    (hg : g ∉ F) (hq : q ∈ H) : s'.get g q = s.get g q := by
  refine Mem.loadLE_congr fun x h1 h2 => h x ?_
  rintro ⟨p, hp, f, hf, h3, h4⟩
  by_cases hpq : p = q
  · subst hpq
    have hfg : f ≠ g := fun he => hg (he ▸ hf)
    have hdisjoint : f.off + f.width ≤ g.off ∨ g.off + g.width ≤ f.off :=
      mallocMetadata.disjoint f g hfg
    omega
  · have hdisjoint : q + g.off + g.width ≤ p + f.off ∨ p + f.off + f.width ≤ q + g.off :=
      mallocMetadata.disjoint_of_apart (hH.apart p hp q hq hpq)
    omega

/-- A header clear of everything written keeps all its fields. -/
theorem get_outside (h : SameOff W s s') {g : Field} {q : Nat}
    (hq : ∀ x ∈ W, x < q ∨ q + metaSize ≤ x) : s'.get g q = s.get g q := by
  refine mallocMetadata.load_congr fun x h1 h2 => h x fun hx => ?_
  change x < q + metaSize at h2
  have hout := hq x hx
  omega

end SameOff

/-! ## Field reads see only memory -/

theorem get_of_mem {s s' : Heap} (h : s'.mem = s.mem) (f : Field) (p : Nat) :
    s'.get f p = s.get f p := by
  rw [Heap.get, Heap.get, h]

section Reads

variable (s : Heap) (f : Field) (p : Nat)

@[simp] theorem get_setHisto (i : Fin 128) (v : Nat) : (s.setHisto i v).get f p = s.get f p := rfl

@[simp] theorem get_setNum (n : Nat) :
    Heap.get { s with numOfMetadatas := n } f p = s.get f p := rfl

@[simp] theorem put_freeHistogram (v : Nat) : (s.put f p v).freeHistogram = s.freeHistogram := rfl

@[simp] theorem put_allListHead (v : Nat) : (s.put f p v).allListHead = s.allListHead := rfl

@[simp] theorem put_allListEnd (v : Nat) : (s.put f p v).allListEnd = s.allListEnd := rfl

@[simp] theorem put_kernel (v : Nat) : (s.put f p v).kernel = s.kernel := rfl

@[simp] theorem put_numOfMetadatas (v : Nat) :
    (s.put f p v).numOfMetadatas = s.numOfMetadatas := rfl

end Reads

end OsAllHw.Malloc
