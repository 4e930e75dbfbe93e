import OsAllHw.Malloc.Shape

/-!
# One event

`Step` is what every event does to the world when it does not fault: the
invariant holds again with a new block list, the blocks of the other live
pointers are as they were, and only a mapping that the event released was
unmapped. Each lemma of the first section is a step by itself; an event is
one of them or a composite of two or three.
-/

namespace OsAllHw.Malloc

open Lib

/-- The block of `p` is where it was, with the same size and contents. -/
structure Undisturbed (w w' : World) (p : Nat) : Prop where
  live : p ∈ w'.live
  size : w'.sizeOf p = w.sizeOf p
  bytes : ∀ i < w.sizeOf p, w'.heap.mem (p + i) = w.heap.mem (p + i)

theorem Undisturbed.trans {w w' w'' : World} {p : Nat} (h : Undisturbed w w' p)
    (h' : Undisturbed w' w'' p) : Undisturbed w w'' p :=
  ⟨h'.live, h'.size.trans h.size, fun i hi => (h'.bytes i (by rw [h.size]; exact hi)).trans
    (h.bytes i hi)⟩

/-- Everything is a multiple of eight. -/
structure World.Aligned (w : World) (B : List Block) : Prop where
  brk : 8 ∣ w.heap.kernel.brk
  blocks : ∀ b ∈ B, b.Aligned
  maps : ∀ r ∈ w.heap.kernel.maps, 8 ∣ r.2

/-- A step of the world. `touched` are the pointers it may affect, `clear`
is what keeps the list coalesced, `small` is that nothing gets mapped,
`eights` that requests are multiples of eight. -/
structure Step (os : Os) (touched : Set Nat) (clear small eights : Prop)
    (w : World) (B : List Block) (w' : World) (B' : List Block) : Prop where
  inv : Inv os w' B'
  others : ∀ p ∈ w.live, p ∉ touched → Undisturbed w w' p
  failures : w.heap.kernel.sbrkFailures ≤ w'.heap.kernel.sbrkFailures
  unmaps : (w'.heap.kernel.munmaps = w.heap.kernel.munmaps ∧
      ∀ r ∈ w.heap.kernel.maps, r ∈ w'.heap.kernel.maps) ∨
    ∃ r ∈ w.heap.kernel.maps, r.1 + metaSize ∈ touched ∧
      w'.heap.kernel.munmaps = r :: w.heap.kernel.munmaps
  coalesced : clear → Coalesced B → Coalesced B'
  unmapped : small → w.heap.kernel.maps = [] → w'.heap.kernel.maps = []
  aligned : eights → w.Aligned B → w'.Aligned B'

section Inv

variable {os : Os} {w : World} {B : List Block} {p : Nat} {r : Nat × Nat}

/-- A live pointer is a block of the list or a mapping. -/
theorem Inv.cases (h : Inv os w B) (hp : p ∈ w.live) :
    (∃ L m R, B = L ++ m :: R ∧ m.free = false ∧ m.payload = p) ∨
      ∃ r ∈ w.heap.kernel.maps, r.1 + metaSize = p := by
  rcases (h.live p).mp hp with ⟨b, hb, hbf, hbp⟩ | hr
  · obtain ⟨L, R, rfl⟩ := List.append_of_mem hb
    exact .inl ⟨L, b, R, rfl, hbf, hbp⟩
  · exact .inr hr

theorem Inv.sizeOf_block {b : Block} (h : Inv os w B) (hb : b ∈ B) :
    w.sizeOf b.payload = b.size := by
  rw [World.sizeOf, payload_sub]
  exact h.rep.core.size b hb

theorem Inv.zero_notMem (h : Inv os w B) : 0 ∉ w.live := by
  intro h0
  have hms : metaSize = 48 := rfl
  rcases h.cases h0 with ⟨L, m, R, -, -, hm⟩ | ⟨r, -, hr⟩
  · exact payload_ne_zero m hm
  · omega

/-- Payloads of the list and payloads of mappings are different. -/
theorem Mapped.payload_notMem {s s' : Heap} (h : Mapped os s) (hrep : Rep os s' B) {b : Block}
    (hb : b ∈ B) : b.payload ∉ mapPayloads s.kernel.maps := by
  rintro ⟨r, hr, he⟩
  have h1 := (hrep.core.layout.bounds hb).1
  have h2 := (payload_le_fin b).trans ((hrep.core.fin_le hb).trans hrep.core.brk_le)
  have h3 := h.header_off hr
  have hms : metaSize = 48 := rfl
  unfold Block.payload at *
  omega

end Inv

namespace Step

variable {os : Os} {t t' : Set Nat} {clear small eights : Prop} {w w' w'' : World}
  {B B' B'' : List Block}

theorem trans (h : Step os t clear small eights w B w' B')
    (h' : Step os t' clear small eights w' B' w'' B'')
    (hnew : ∀ r ∈ w'.heap.kernel.maps, w''.heap.kernel.munmaps = r :: w'.heap.kernel.munmaps →
      r.1 + metaSize ∈ t' → r ∈ w.heap.kernel.maps)
    (hmun : w'.heap.kernel.munmaps = w.heap.kernel.munmaps) :
    Step os (t ∪ t') clear small eights w B w'' B'' where
  inv := h'.inv
  others := fun p hp ht => by
    have h1 := h.others p hp fun hm => ht (.inl hm)
    exact h1.trans (h'.others p h1.live fun hm => ht (.inr hm))
  failures := h.failures.trans h'.failures
  unmaps := by
    rcases h'.unmaps with ⟨h1, h2⟩ | ⟨r, hr, hrt, h1⟩
    · rcases h.unmaps with ⟨h3, h4⟩ | ⟨r, hr, hrt, h3⟩
      · exact .inl ⟨h1.trans h3, fun r hr => h2 r (h4 r hr)⟩
      · exact .inr ⟨r, hr, .inl hrt, h1.trans h3⟩
    · exact .inr ⟨r, hnew r hr h1 hrt, .inr hrt, h1.trans (by rw [hmun])⟩
  coalesced := fun hc hB => h'.coalesced hc (h.coalesced hc hB)
  unmapped := fun hs hm => h'.unmapped hs (h.unmapped hs hm)
  aligned := fun he ha => h'.aligned he (h.aligned he ha)

theorem refl (h : Inv os w B) : Step os t clear small eights w B w B :=
  ⟨h, fun _ hp _ => ⟨hp, rfl, fun _ _ => rfl⟩, le_rfl, .inl ⟨rfl, fun _ hr => hr⟩,
    fun _ hB => hB, fun _ hm => hm, fun _ ha => ha⟩

/-- Only live pointers matter to `touched`. -/
theorem retouch (h : Step os t clear small eights w B w' B') (hw : Inv os w B)
    (ht : ∀ p ∈ w.live, p ∈ t → p ∈ t') : Step os t' clear small eights w B w' B' :=
  { h with
    others := fun p hp hp' => h.others p hp fun hm => hp' (ht p hp hm)
    unmaps := h.unmaps.imp_right fun ⟨r, hr, hrt, h1⟩ =>
      ⟨r, hr, ht _ ((hw.live _).mpr (.inr ⟨r, hr, rfl⟩)) hrt, h1⟩ }

end Step

/-- A call on the data segment leaves the other live blocks undisturbed. -/
theorem Inv.undisturbed {os : Os} {w w' : World} {B B' : List Block} {own : Set Nat} {p : Nat}
    (h : Inv os w B) (hk : Keeps os own B B' w.heap w'.heap) (hrep : Rep os w'.heap B')
    (hp : p ∈ w.live) (hown : ∀ b ∈ B, b.free = false → b.payload = p → b.addr ∉ own)
    (hlive : p ∈ w'.live) : Undisturbed w w' p := by
  have hms : metaSize = 48 := rfl
  rcases h.cases hp with ⟨L, m, R, rfl, hm, rfl⟩ | ⟨r, hr, rfl⟩
  · have hmem : m ∈ L ++ m :: R := by simp
    obtain ⟨hm', hbytes⟩ := hk.used m hmem hm (hown m hmem hm rfl)
    have hsize' : w'.sizeOf m.payload = m.size := by
      rw [World.sizeOf, payload_sub]
      exact hrep.core.size m hm'
    refine ⟨hlive, hsize'.trans (h.sizeOf_block hmem).symm, fun i hi => ?_⟩
    rw [h.sizeOf_block hmem] at hi
    refine hbytes _ (Nat.le_add_right _ _) ?_
    unfold Block.payload Block.fin
    omega
  · obtain ⟨hlen, -⟩ := h.mapped.size r hr
    have hoff := (h.mapped.range r hr).2.2
    have hsize : w.sizeOf (r.1 + metaSize) = w.heap.get .size r.1 := by
      rw [World.sizeOf, Nat.add_sub_cancel]
    refine ⟨hlive, ?_, fun i hi => hk.off _ (by omega)⟩
    rw [hsize, World.sizeOf, Nat.add_sub_cancel]
    have := Field.size.end_le
    exact Mem.loadLE_congr fun x h1 h2 => hk.off x (by omega)

/-! ## Single steps -/

section Single

variable {v : Version} {os : Os} {t : Set Nat} {clear small eights : Prop} {w : World} {s' : Heap}
  {L R B B' : List Block} {m : Block} {live' : List Nat} {own : Set Nat} {p r size : Nat}

/-- A step that works on the data segment. -/
theorem Step.of_keeps (h : Inv os w B) (hk : Keeps os own B B' w.heap s') (hrep : Rep os s' B')
    (hlive : ∀ p, p ∈ live' ↔ p ∈ usedPayloads B' ∨ p ∈ mapPayloads w.heap.kernel.maps)
    (hnodup : live'.Nodup)
    (hothers : ∀ p ∈ w.live, p ∉ t →
      p ∈ live' ∧ ∀ b ∈ B, b.free = false → b.payload = p → b.addr ∉ own)
    (hco : clear → Coalesced B → Coalesced B')
    (hal : eights → 8 ∣ w.heap.kernel.brk → (∀ b ∈ B, b.Aligned) → ∀ b ∈ B', b.Aligned) :
    Step os t clear small eights w B ⟨s', live'⟩ B' where
  inv := by
    refine ⟨hrep, h.mapped.of_keeps hk, ?_, hnodup, ?_⟩
    · change ∀ p, p ∈ live' ↔ p ∈ usedPayloads B' ∨ p ∈ mapPayloads s'.kernel.maps
      rw [hk.maps]
      exact hlive
    · intro h0
      have hw0 : w.heap.kernel.sbrkFailures = 0 := Nat.le_zero.mp (h0 ▸ hk.failures)
      obtain ⟨h1, h2⟩ := h.count hw0
      have hlen := h.mapped.length_lt
      change s'.numOfMetadatas = B'.length + s'.kernel.maps.length ∧ _
      rw [hk.maps]
      exact hk.count h0 _ (by omega) h1 h2
  others := fun p hp ht => h.undisturbed hk hrep hp (hothers p hp ht).2 (hothers p hp ht).1
  failures := hk.failures
  unmaps := .inl ⟨hk.munmaps, fun r hr => hk.maps ▸ hr⟩
  coalesced := hco
  unmapped := fun _ hm => hk.maps.trans hm
  aligned := fun he ha => by
    have hB' := hal he ha.brk ha.blocks
    refine ⟨?_, hB', fun r hr => ha.maps r (hk.maps ▸ hr)⟩
    obtain ⟨g, hg⟩ := hk.leak
    have hms : metaSize = 48 := rfl
    have h1 := ha.brk
    have h2 := dvd_totalBytes ha.blocks
    have h3 := dvd_totalBytes hB'
    change 8 ∣ s'.kernel.brk
    rw [hms] at hg
    omega

/-- A step that leaves the block list and the client's pointers as they are. -/
theorem Step.of_same (h : Inv os w B) (hk : Keeps os own B B w.heap s') (hrep : Rep os s' B)
    (hown : ∀ b ∈ B, b.free = false → b.addr ∈ own → b.payload ∈ t) :
    Step os t clear small eights w B ⟨s', w.live⟩ B := by
  refine .of_keeps h hk hrep h.live h.nodup (fun p hp ht => ⟨hp, ?_⟩) (fun _ hB => hB)
    fun _ _ hB => hB
  rintro b hb hbf rfl ho
  exact ht (hown b hb hbf ho)

/-- **Allocation** on the data segment. -/
theorem Step.alloc (h : Inv os w B) (hr0 : r ≠ 0) (hr8 : eights → 8 ∣ r) {x : Nat × Heap}
    (hx : Answer os ∅ B (Allocates r w.heap.kernel.brk B) w.heap x) :
    ∃ B', Step os ∅ clear small eights w B (w.give x) B' ∧
      (x.1 ≠ 0 → r ≤ (w.give x).sizeOf x.1) := by
  cases hx with
  | null s' hrep hkeeps hfail =>
      refine ⟨B, ?_, fun hx => absurd rfl hx⟩
      rw [World.give, if_pos rfl]
      exact .of_same h hkeeps hrep fun _ _ _ hm => hm.elim
  | block B' q s' halloc hrep hkeeps =>
      obtain ⟨Ln, n, Rn, rfl, rfl, hnf, hnr, -⟩ := halloc.exists_new h.rep.core.layout
      have hn : n ∈ Ln ++ n :: Rn := by simp
      have hnew : n.payload ∉ w.live := by
        rw [h.live]
        rintro (hu | hu)
        · exact halloc.notMem h.rep.core.layout hu
        · exact h.mapped.payload_notMem hrep hn hu
      refine ⟨Ln ++ n :: Rn, ?_, fun _ => ?_⟩
      rotate_left
      · rw [World.sizeOf, payload_sub]
        exact hnr.trans_eq (hrep.core.size n hn).symm
      rw [World.give, if_neg (payload_ne_zero n)]
      refine .of_keeps h hkeeps hrep ?_ (List.nodup_cons.mpr ⟨hnew, h.nodup⟩) ?_
        (fun _ hB => halloc.coalesced hB)
        fun he hb hB => halloc.aligned hB hb (hr8 he) (Nat.pos_of_ne_zero hr0)
      · intro p
        rw [List.mem_cons, h.live p, halloc.usedPayloads]
        exact ⟨by rintro (h1 | h1 | h1) <;> simp [h1], by rintro ((h1 | h1) | h1) <;> simp [h1]⟩
      · exact fun p hp _ => ⟨List.mem_cons_of_mem _ hp, fun _ _ _ _ hm => hm.elim⟩

/-- **Release** of a block of the list. -/
theorem Step.release (h : Inv os w (L ++ m :: R)) (hm : m.free = false)
    (hk : Keeps os {m.addr} (L ++ m :: R) (freed L m R) w.heap s')
    (hrep : Rep os s' (freed L m R)) :
    Step os {m.payload} clear small eights w (L ++ m :: R) ⟨s', w.live.erase m.payload⟩
      (freed L m R) := by
  have hmem : m ∈ L ++ m :: R := by simp
  refine .of_keeps h hk hrep ?_ (h.nodup.erase _) ?_ (fun _ hB => hB.freed)
    fun _ _ hB => forall_mem_freed hB
  · intro p
    obtain ⟨h1, h2⟩ := h.rep.core.layout.payload_notMem
    rw [h.nodup.mem_erase_iff, h.live p, mem_usedPayloads_freed]
    by_cases hp : p = m.payload
    · subst hp
      have hmap := h.mapped.payload_notMem h.rep hmem
      simp [h1, h2, hmap]
    · simp [hp, hm]
  · intro p hp hne
    refine ⟨h.nodup.mem_erase_iff.mpr ⟨hne, hp⟩, ?_⟩
    rintro b hb - rfl he
    exact hne (payload_inj.mpr he)

/-- **Reallocation** on the data segment. -/
theorem Step.realloc (clear small eights : Prop) (h : Inv os w (L ++ m :: R)) (hm : m.free = false)
    (hr0 : r ≠ 0) (hr8 : eights → 8 ∣ r) {x : Nat × Heap}
    (hx : Answer os {m.addr} (L ++ m :: R) (Reallocates r w.heap.kernel.brk L m R) w.heap x)
    (hclear : clear → 0 < freeHeadBytes R →
      (r ≤ m.size → m.size < r + (128 + metaSize)) ∧
      (m.size < r → r ≤ freeLastBytes L + m.size →
        freeLastBytes L + m.size < r + (128 + metaSize))) :
    ∃ B', Step os {m.payload} clear small eights w (L ++ m :: R)
      ⟨x.2, if x.1 = 0 then w.live else x.1 :: w.live.erase m.payload⟩ B' := by
  have hmem : m ∈ L ++ m :: R := by simp
  cases hx with
  | null s' hrep hkeeps hfail =>
      refine ⟨L ++ m :: R, ?_⟩
      rw [if_pos rfl]
      exact .of_same h hkeeps hrep fun _ _ _ ho => ho.elim
  | block B' q s' hrel hrep hkeeps =>
      have hlay := h.rep.core.layout
      obtain ⟨n, hn, hnf, rfl⟩ : q ∈ usedPayloads B' := (hrel.usedPayloads hm hlay).mpr (.inr rfl)
      have hmapm := h.mapped.payload_notMem h.rep hmem
      have hnew : n.payload ∉ w.live.erase m.payload := by
        rw [h.nodup.mem_erase_iff, h.live]
        rintro ⟨hne, hu | hu⟩
        · exact hrel.notMem hlay hne hu
        · exact h.mapped.payload_notMem hrep hn hu
      refine ⟨B', ?_⟩
      rw [if_neg (payload_ne_zero n)]
      refine .of_keeps h hkeeps hrep ?_ (List.nodup_cons.mpr ⟨hnew, h.nodup.erase _⟩) ?_
        (fun hc hB => hrel.coalesced hB (hclear hc))
        fun he hb hB => hrel.aligned hB hb (hr8 he) (Nat.pos_of_ne_zero hr0)
      · intro p
        obtain ⟨h1, h2⟩ := hlay.payload_notMem
        rw [List.mem_cons, h.nodup.mem_erase_iff, h.live p, hrel.usedPayloads hm hlay]
        by_cases hp : p = m.payload
        · subst hp
          simp [h1, h2, hmapm]
        · simp only [ne_eq, hp, not_false_eq_true, true_and, mem_usedPayloads_append,
            mem_usedPayloads_cons, and_false, false_or]
          exact ⟨by rintro (h1 | h1 | h1) <;> simp [h1], by rintro ((h1 | h1) | h1) <;> simp [h1]⟩
      · intro p hp hne
        refine ⟨List.mem_cons_of_mem _ (h.nodup.mem_erase_iff.mpr ⟨hne, hp⟩), ?_⟩
        rintro b hb - rfl he
        exact hne (payload_inj.mpr he)

theorem Inv.sizeOf_map {r : Nat × Nat} (h : Inv os w B) (hr : r ∈ w.heap.kernel.maps) :
    w.sizeOf (r.1 + metaSize) + metaSize = r.2 := by
  rw [World.sizeOf, Nat.add_sub_cancel, ← (h.mapped.size r hr).1]

/-- The bytes of a live block: header and payload. -/
theorem Inv.range_cases (h : Inv os w B) (hp : p ∈ w.live) :
    (os.brk0 + metaSize ≤ p ∧ p + w.sizeOf p ≤ os.limit) ∨
      ∃ r ∈ w.heap.kernel.maps, r.1 + metaSize = p ∧ p + w.sizeOf p = r.1 + r.2 := by
  rcases h.cases hp with ⟨L, m, R, rfl, hm, rfl⟩ | ⟨r, hr, rfl⟩
  · have hmem : m ∈ L ++ m :: R := by simp
    rw [h.sizeOf_block hmem]
    have h1 := (h.rep.core.layout.bounds hmem).1
    have h2 := (h.rep.core.fin_le hmem).trans h.rep.core.brk_le
    exact .inl ⟨Nat.add_le_add_right h1 _, h2⟩
  · exact .inr ⟨r, hr, rfl, by have := h.sizeOf_map hr; omega⟩

/-- A new mapping. -/
theorem Step.map (clear small eights : Prop) (h : Inv os w B) {a n : Nat} (hrep : Rep os s' B)
    (hmapped : Mapped os s')
    (hk : s'.kernel = { w.heap.kernel with
      mmapCalls := w.heap.kernel.mmapCalls + 1,
      maps := (a, n + metaSize) :: w.heap.kernel.maps })
    (hmem : ∀ x, x < a ∨ a + (n + metaSize) ≤ x → s'.mem x = w.heap.mem x)
    (hnum : s'.numOfMetadatas = w.heap.numOfMetadatas + 1) (hsmall : ¬small)
    (hn8 : eights → 8 ∣ n) :
    Step os ∅ clear small eights w B ⟨s', (a + metaSize) :: w.live⟩ B := by
  have hms : metaSize = 48 := rfl
  have hmaps : s'.kernel.maps = (a, n + metaSize) :: w.heap.kernel.maps := by rw [hk]
  have hin : (a, n + metaSize) ∈ s'.kernel.maps := by rw [hmaps]; simp
  have hapart : ∀ r ∈ w.heap.kernel.maps, Apart (a, n + metaSize) r := by
    have := hmapped.apart
    rw [hmaps] at this
    exact (List.pairwise_cons.mp this).1
  have hnew : a + metaSize ∉ w.live := by
    rw [h.live]
    rintro (⟨b, hb, -, he⟩ | ⟨r, hr, he⟩)
    · exact hmapped.payload_notMem hrep hb ⟨_, hin, he.symm⟩
    · have hap := hapart r hr
      have := (h.mapped.size r hr).1
      unfold Apart at hap
      omega
  have hoff := (hmapped.range _ hin).2.2
  refine ⟨⟨hrep, hmapped, ?_, List.nodup_cons.mpr ⟨hnew, h.nodup⟩, ?_⟩, ?_, ?_, ?_,
    fun _ hB => hB, fun hs => absurd hs hsmall, ?_⟩
  · intro p
    change p ∈ (a + metaSize) :: w.live ↔ _ ∨ p ∈ mapPayloads s'.kernel.maps
    rw [List.mem_cons, h.live p, hmaps]
    constructor
    · rintro (rfl | hu | ⟨r, hr, he⟩)
      · exact .inr ⟨_, List.mem_cons_self, rfl⟩
      · exact .inl hu
      · exact .inr ⟨r, List.mem_cons_of_mem _ hr, he⟩
    · rintro (hu | ⟨r, hr, he⟩)
      · exact .inr (.inl hu)
      · rcases List.mem_cons.mp hr with rfl | hr
        · exact .inl he.symm
        · exact .inr (.inr ⟨r, hr, he⟩)
  · intro h0
    change s'.numOfMetadatas = _ + s'.kernel.maps.length ∧ s'.kernel.brk = _
    have hf : w.heap.kernel.sbrkFailures = 0 := by
      rw [← h0]
      change _ = s'.kernel.sbrkFailures
      rw [hk]
    obtain ⟨h1, h2⟩ := h.count hf
    refine ⟨?_, ?_⟩
    · rw [hnum, hmaps, h1, List.length_cons]
      omega
    · rw [hk]
      exact h2
  · intro p hp _
    -- the new mapping is clear of the block of `p`, header included
    have hclear : p + w.sizeOf p ≤ a ∨ a + (n + metaSize) + metaSize ≤ p := by
      rcases h.range_cases hp with ⟨h1, h2⟩ | ⟨r, hr, h1, h2⟩
      · simp only at hoff
        omega
      · have hap := hapart r hr
        unfold Apart at hap
        simp only at hap
        omega
    refine ⟨List.mem_cons_of_mem _ hp, ?_, fun i hi => hmem _ (by omega)⟩
    have := Field.size.end_le
    have hle : metaSize ≤ p := by
      rcases h.range_cases hp with ⟨h1, -⟩ | ⟨r, -, h1, -⟩ <;> omega
    exact Mem.loadLE_congr fun x h1 h2 => hmem x (by omega)
  · change _ ≤ s'.kernel.sbrkFailures
    rw [hk]
  · left
    change s'.kernel.munmaps = _ ∧ ∀ r ∈ _, r ∈ s'.kernel.maps
    refine ⟨by rw [hk], fun r hr => ?_⟩
    rw [hmaps]
    exact List.mem_cons_of_mem _ hr
  · intro he ha
    refine ⟨?_, ha.blocks, ?_⟩
    · change 8 ∣ s'.kernel.brk
      rw [hk]
      exact ha.brk
    · change ∀ r ∈ s'.kernel.maps, _
      rw [hmaps]
      exact List.forall_mem_cons.mpr ⟨Nat.dvd_add (hn8 he) (by decide), ha.maps⟩

/-- A refused `mmap`. -/
theorem Step.mapRefused (h : Inv os w B) {k : Kernel} (h1 : k.maps = w.heap.kernel.maps)
    (h2 : k.munmaps = w.heap.kernel.munmaps) (h3 : k.brk = w.heap.kernel.brk)
    (h4 : k.sbrkFailures = w.heap.kernel.sbrkFailures) :
    Step os t clear small eights w B ⟨{ w.heap with kernel := k }, w.live⟩ B := by
  have hkeeps : Keeps os ∅ B B w.heap { w.heap with kernel := k } :=
    ⟨h1, h2, rfl, rfl, h4.ge, fun _ _ => rfl, fun b hb _ _ => ⟨hb, fun _ _ _ => rfl⟩,
      fun _ _ _ h5 h6 => ⟨h5, h3.trans h6⟩, 0, by rw [← h3]; rfl⟩
  exact .of_same h hkeeps (h.rep.setKernel h3.ge (by rw [h3]; exact h.rep.core.brk_le))
    fun _ _ _ ho => ho.elim

/-- **Release** of a mapped block. -/
theorem Step.unmap (h : Inv os w B) {r : Nat × Nat} (hr : r ∈ w.heap.kernel.maps) :
    Step os {r.1 + metaSize} clear small eights w B
      ⟨deallocateMmap w.heap r.1, w.live.erase (r.1 + metaSize)⟩ B := by
  obtain ⟨hmem, hrep, hmapped, hk, hnum⟩ := deallocateMmap_spec h.rep h.mapped hr
  have hmaps : (deallocateMmap w.heap r.1).kernel.maps = w.heap.kernel.maps.erase r := by rw [hk]
  refine ⟨⟨hrep, hmapped, ?_, h.nodup.erase _, ?_⟩, ?_, ?_, ?_, fun _ hB => hB, ?_, ?_⟩
  · intro p
    change p ∈ w.live.erase _ ↔ _ ∨ p ∈ mapPayloads (deallocateMmap w.heap r.1).kernel.maps
    rw [h.nodup.mem_erase_iff, h.live p, hmaps]
    constructor
    · rintro ⟨hne, hu | ⟨t, ht, rfl⟩⟩
      · exact .inl hu
      · refine .inr ⟨t, h.mapped.nodup.mem_erase_iff.mpr ⟨?_, ht⟩, rfl⟩
        rintro rfl
        exact hne rfl
    · rintro (⟨b, hb, hbf, rfl⟩ | ⟨t, ht, rfl⟩)
      · exact ⟨fun he => h.mapped.payload_notMem h.rep hb ⟨r, hr, he.symm⟩, .inl ⟨b, hb, hbf, rfl⟩⟩
      · obtain ⟨hne, ht⟩ := h.mapped.nodup.mem_erase_iff.mp ht
        exact ⟨fun he => hne (h.mapped.eq_of_addr ht hr (Nat.add_right_cancel he)),
          .inr ⟨t, ht, rfl⟩⟩
  · intro h0
    change (deallocateMmap w.heap r.1).numOfMetadatas =
      _ + (deallocateMmap w.heap r.1).kernel.maps.length ∧
      (deallocateMmap w.heap r.1).kernel.brk = _
    have hf : w.heap.kernel.sbrkFailures = 0 := by
      rw [← h0]
      change _ = (deallocateMmap w.heap r.1).kernel.sbrkFailures
      rw [hk]
    obtain ⟨h1, h2⟩ := h.count hf
    have hlen := h.mapped.length_lt
    have hBlen := h.rep.core.length_lt
    have hpos := List.length_pos_of_mem hr
    refine ⟨?_, by rw [hk]; exact h2⟩
    rw [hnum, hmaps, List.length_erase_of_mem hr, h1, subT_of_le (by omega) (by omega)]
    omega
  · intro p hp hne
    refine ⟨h.nodup.mem_erase_iff.mpr ⟨hne, hp⟩, deallocateMmap_get _ _ _ _, fun i _ => ?_⟩
    change (deallocateMmap w.heap r.1).mem _ = _
    rw [hmem]
  · change _ ≤ (deallocateMmap w.heap r.1).kernel.sbrkFailures
    rw [hk]
  · refine .inr ⟨r, hr, rfl, ?_⟩
    change (deallocateMmap w.heap r.1).kernel.munmaps = _
    rw [hk]
  · intro _ hm
    rw [hm] at hr
    cases hr
  · intro _ ha
    refine ⟨?_, ha.blocks, ?_⟩
    · change 8 ∣ (deallocateMmap w.heap r.1).kernel.brk
      rw [hk]
      exact ha.brk
    · change ∀ t ∈ (deallocateMmap w.heap r.1).kernel.maps, _
      rw [hmaps]
      exact fun t ht => ha.maps t (List.mem_of_mem_erase ht)

/-- **Writes** inside the payload of one live block. -/
theorem Step.write (clear small eights : Prop) (h : Inv os w B) (hp : p ∈ w.live) (m' : Mem)
    (hm' : ∀ x, x < p ∨ p + w.sizeOf p ≤ x → m' x = w.heap.mem x) :
    Step os {p} clear small eights w B ⟨{ w.heap with mem := m' }, w.live⟩ B := by
  have hms : metaSize = 48 := rfl
  rcases h.cases hp with ⟨L, m, R, rfl, hm, rfl⟩ | ⟨r, hr, rfl⟩
  · rw [h.sizeOf_block (b := m) (by simp)] at hm'
    obtain ⟨hrep, hkeeps⟩ := h.rep.writeIn {m.addr} hm' (.inr rfl)
    exact .of_same h hkeeps hrep fun b _ _ he => payload_inj.mpr he
  · have hlen := h.sizeOf_map hr
    have hoff := (h.mapped.range r hr).2.2
    obtain ⟨hrep, hmapped⟩ := h.mapped.writeIn h.rep hr (m := m') fun x hx => hm' x (by omega)
    refine ⟨⟨hrep, hmapped, h.live, h.nodup, h.count⟩, ?_, le_rfl, .inl ⟨rfl, fun _ ht => ht⟩,
      fun _ hB => hB, fun _ hm => hm, fun _ ha => ⟨ha.brk, ha.blocks, ha.maps⟩⟩
    intro q hq hne
    have hne' : q ≠ r.1 + metaSize := hne
    -- the block of `q`, header included, is clear of the payload written
    have hclear : q + w.sizeOf q ≤ r.1 ∨ r.1 + r.2 + metaSize ≤ q := by
      rcases h.range_cases hq with ⟨h1, h2⟩ | ⟨t, ht, h1, h2⟩
      · omega
      · have htr : t ≠ r := fun he => hne' (by rw [← h1, he])
        have hap := h.mapped.apart_of_ne ht hr htr
        have hlen' := h.sizeOf_map ht
        unfold Apart at hap
        omega
    have hle : metaSize ≤ q := by
      rcases h.range_cases hq with ⟨h1, -⟩ | ⟨t, -, h1, -⟩ <;> omega
    refine ⟨hq, ?_, fun i hi => hm' _ (by omega)⟩
    have := Field.size.end_le
    exact Mem.loadLE_congr fun x h1 h2 => hm' x (by omega)

end Single

/-! ## The calls -/

section Calls

variable {v : Version} {os : Os} {clear small eights : Prop} {w : World} {L R B : List Block}
  {m : Block} {p size : Nat}

theorem Rep.freeLeft_eq {s : Heap} (h : Rep os s (L ++ m :: R)) :
    s.freeLeft m.addr = freeLastBytes L := by
  rw [Heap.freeLeft, h.core.links.1]
  rcases List.eq_nil_or_concat L with rfl | ⟨L, a, rfl⟩
  · simp
  · rw [List.concat_eq_append] at *
    have hmem : a ∈ L ++ [a] ++ m :: R := by simp
    rw [lastAddr_concat, h.core.flag a hmem, h.core.size a hmem, freeLastBytes_concat]
    simp [h.addr_ne_zero hmem]

theorem Rep.freeRight_eq {s : Heap} (h : Rep os s (L ++ m :: R)) :
    s.freeRight m.addr = freeHeadBytes R := by
  rw [Heap.freeRight, h.core.links.2]
  cases R with
  | nil => simp [freeHeadBytes]
  | cons c R =>
      have hmem : c ∈ L ++ m :: c :: R := by simp
      rw [firstAddr_cons, h.core.flag c hmem, h.core.size c hmem]
      simp [freeHeadBytes, h.addr_ne_zero hmem]

/-- `smalloc`, of any size. -/
theorem Step.smalloc (v : Version) (size : Nat) (clear small eights : Prop) (h : Inv os w B)
    (hsmall : small → v.round size < mmapSize) (hr8 : eights → 8 ∣ v.round size) :
    ∃ x B', smalloc v os w.heap size = .ok x ∧ Step os ∅ clear small eights w B (w.give x) B' ∧
      (x.1 ≠ 0 → v.round size ≠ 0 ∧ v.round size ≤ (w.give x).sizeOf x.1) := by
  by_cases hmax : v.round size = 0 ∨ maxRequest < v.round size
  · refine ⟨(0, w.heap), B, ?_, .refl h, fun hx => absurd rfl hx⟩
    rw [Malloc.smalloc]
    simp only [if_pos hmax]
    rfl
  have hr0 : v.round size ≠ 0 := fun h0 => hmax (.inl h0)
  by_cases hbig : mmapSize ≤ v.round size
  · have hrun : Malloc.smalloc v os w.heap size = .ok (mmapWrapper os w.heap (v.round size)) := by
      rw [Malloc.smalloc]
      simp only [if_neg hmax, if_pos hbig]
      rfl
    refine ⟨_, B, hrun, ?_⟩
    rcases mmapWrapper_cases h.rep h.mapped hbig (by omega) with
      ⟨k, -, hmk, h1, h2, h3, h4⟩ | ⟨a, s', -, hmk, hrep, hmapped, hk, hsz, hmem, hnum⟩
    · rw [hmk, World.give, if_pos rfl]
      exact ⟨.mapRefused h h1 h2 h3 h4, fun hx => absurd rfl hx⟩
    · have ha0 : a + metaSize ≠ 0 := Nat.succ_ne_zero _
      rw [hmk, World.give, if_neg ha0]
      refine ⟨.map _ _ _ h hrep hmapped hk hmem hnum (fun hs => ?_) hr8, fun _ => ⟨hr0, ?_⟩⟩
      · have := hsmall hs
        omega
      · rw [World.sizeOf, Nat.add_sub_cancel]
        exact hsz.ge
  · obtain ⟨x, hrun, hx⟩ := smalloc_small v size h.rep hr0 (by omega)
    obtain ⟨B', hstep, hlen⟩ := Step.alloc h hr0 hr8 hx
    exact ⟨x, B', hrun, hstep, fun hx => ⟨hr0, hlen hx⟩⟩

/-- A call that touches nothing unmaps nothing. -/
theorem Step.munmaps_eq {w' : World} {B' : List Block}
    (h : Step os ∅ clear small eights w B w' B') :
    w'.heap.kernel.munmaps = w.heap.kernel.munmaps := by
  rcases h.unmaps with ⟨h1, -⟩ | ⟨r, -, hr, -⟩
  · exact h1
  · exact hr.elim

theorem World.mem_give {x : Nat × Heap} (hx : x.1 ≠ 0) : x.1 ∈ (w.give x).live := by
  rw [World.give, if_neg hx]
  exact List.mem_cons_self

theorem joinFits_iff (h : Inv os w (L ++ m :: R)) :
    w.JoinFits m.payload ↔ freeLastBytes L + m.size + freeHeadBytes R < mmapSize := by
  have hmem : m ∈ L ++ m :: R := by simp
  rw [World.JoinFits, h.sizeOf_block hmem, payload_sub, h.rep.freeLeft_eq, h.rep.freeRight_eq]
  exact ⟨fun hf => hf (h.rep.small m hmem), fun hf _ => hf⟩

theorem joinFits_map (h : Inv os w B) {r : Nat × Nat} (hr : r ∈ w.heap.kernel.maps) :
    w.JoinFits (r.1 + metaSize) := by
  intro hlt
  have h1 := (h.mapped.size r hr).2
  rw [World.sizeOf, Nat.add_sub_cancel] at hlt
  omega

/-- `sfree` of a live pointer. -/
theorem Step.sfree (clear small eights : Prop) (h : Inv os w B) (hp : p ∈ w.live) :
    (w.JoinFits p → ∃ s' B', sfree w.heap p = .ok s' ∧
      Step os {p} clear small eights w B ⟨s', w.live.erase p⟩ B') ∧
    (¬w.JoinFits p → Malloc.sfree w.heap p = .error .addIndex) := by
  rcases h.cases hp with ⟨L, m, R, rfl, hm, rfl⟩ | ⟨r, hr, rfl⟩
  · rw [joinFits_iff h]
    obtain ⟨hfit, hlarge⟩ := sfree_heap h.rep hm
    refine ⟨fun hf => ?_, fun hf => hlarge (Nat.not_lt.mp hf)⟩
    obtain ⟨s', hrun, hrep, hkeeps⟩ := hfit hf
    exact ⟨s', _, hrun, .release h hm hkeeps hrep⟩
  · exact ⟨fun _ => ⟨deallocateMmap w.heap r.1, B, sfree_mapped h.mapped hr, .unmap h hr⟩,
      fun hf => absurd (joinFits_map h hr) hf⟩

/-- The bytes of `srealloc`'s result go into a mapping that is new. -/
theorem Step.moveToMap (clear small eights : Prop) (h : Inv os w B) (hp : p ∈ w.live)
    (hsmall : ¬small) {n : Nat} (hn8 : eights → 8 ∣ n) (hn : mmapSize ≤ n) (hmax : n ≤ maxRequest) :
    ((mmap os w.heap.kernel (sizeT (n + metaSize))).1 = none ∧
      ∃ s', mmapWrapper os w.heap n = (0, s') ∧ Step os {p} clear small eights w B ⟨s', w.live⟩ B) ∨
    ((mmap os w.heap.kernel (sizeT (n + metaSize))).1 ≠ none ∧
      ∃ q s', mmapWrapper os w.heap n = (q, s') ∧ q ≠ 0 ∧
        (w.JoinFits p → ∃ s'' B', Malloc.sfree (s'.memmove q p
            (min (s'.get .size (p - metaSize)) n)) p = .ok s'' ∧
          Step os {p} clear small eights w B ⟨s'', q :: w.live.erase p⟩ B') ∧
        (¬w.JoinFits p → Malloc.sfree (s'.memmove q p
          (min (s'.get .size (p - metaSize)) n)) p = .error .addIndex)) := by
  rcases mmapWrapper_cases h.rep h.mapped hn hmax with
    ⟨k, hno, hmk, h1, h2, h3, h4⟩ | ⟨a, s', hyes, hmk, hrep, hmapped, hk, hsz, hmem, hnum⟩
  · exact .inl ⟨hno, _, hmk, .mapRefused h h1 h2 h3 h4⟩
  · right
    refine ⟨hyes, a + metaSize, s', hmk, Nat.succ_ne_zero _, ?_⟩
    have step1 := Step.map clear small eights h hrep hmapped hk hmem hnum hsmall hn8
    have hq : a + metaSize ∉ w.live := (List.nodup_cons.mp step1.inv.nodup).1
    have hpq : a + metaSize ≠ p := fun he => hq (he ▸ hp)
    obtain ⟨k, hk'⟩ : ∃ k, k = min (s'.get .size (p - metaSize)) n := ⟨_, rfl⟩
    have hkn : k ≤ n := hk' ▸ Nat.min_le_right _ _
    rw [← hk']
    -- the copy stays inside the new mapping, so it is part of making it
    have hinv2 : Inv os ⟨s'.memmove (a + metaSize) p k, (a + metaSize) :: w.live⟩ B := by
      refine (Step.write clear small eights step1.inv (p := a + metaSize)
        List.mem_cons_self _ (fun x hx => Mem.copyBytes_of_outside _ ?_)).inv
      have hsz' : World.sizeOf ⟨s', (a + metaSize) :: w.live⟩ (a + metaSize) = n := by
        rw [World.sizeOf, Nat.add_sub_cancel]
        exact hsz
      rw [hsz'] at hx
      omega
    have step2 : Step os ∅ clear small eights w B
        ⟨s'.memmove (a + metaSize) p k, (a + metaSize) :: w.live⟩ B := by
      refine .map _ _ _ h hinv2.rep hinv2.mapped hk (fun x hx => ?_) hnum hsmall hn8
      exact (Mem.copyBytes_of_outside _ (by omega)).trans (hmem x hx)
    have hfits : w.JoinFits p ↔
        World.JoinFits ⟨s'.memmove (a + metaSize) p k, (a + metaSize) :: w.live⟩ p := by
      rcases h.cases hp with ⟨L, m, R, rfl, hm, rfl⟩ | ⟨r, hr, rfl⟩
      · rw [joinFits_iff h, joinFits_iff hinv2]
      · have hr' : r ∈ s'.kernel.maps := by rw [hk]; exact List.mem_cons_of_mem _ hr
        exact iff_of_true (joinFits_map h hr) (joinFits_map hinv2 hr')
    obtain ⟨hok, herr⟩ := Step.sfree clear small eights hinv2 (p := p)
      (List.mem_cons_of_mem _ hp)
    rw [hfits]
    refine ⟨fun hf => ?_, herr⟩
    obtain ⟨s'', B', hrun, step3⟩ := hok hf
    have herase : ((a + metaSize) :: w.live).erase p = (a + metaSize) :: w.live.erase p :=
      List.erase_cons_tail (by simpa using hpq)
    refine ⟨s'', B', hrun, ?_⟩
    simp only [herase] at step3
    refine (step2.trans step3 ?_ step2.munmaps_eq).retouch h (by simp)
    intro r hr _ hrp
    have hr' : r ∈ s'.kernel.maps := hr
    rw [hk] at hr'
    rcases List.mem_cons.mp hr' with rfl | hr'
    · exact absurd hrp hpq
    · exact hr'

/-- `srealloc` of a live pointer. -/
theorem Step.srealloc (h : Inv os w B) (hp : p ∈ w.live)
    (hsplit : NoMappedSplit v w (.srealloc p size))
    (hd : v = .malloc4 ∨ NoBranchD v w (.srealloc p size))
    (hsmall : small → v.round size < mmapSize) (hclear : clear → SplitClear v w (.srealloc p size))
    (hr8 : eights → 8 ∣ v.round size) :
    (MergeFits v os w (.srealloc p size) → ∃ x B', srealloc v os w.heap p size = .ok x ∧
      Step os {p} clear small eights w B
        ⟨x.2, if x.1 = 0 then w.live else x.1 :: w.live.erase p⟩ B') ∧
    (¬MergeFits v os w (.srealloc p size) →
      Malloc.srealloc v os w.heap p size = .error .addIndex) := by
  have hp0 : p ≠ 0 := fun h0 => h.zero_notMem (h0 ▸ hp)
  by_cases hmax : v.round size = 0 ∨ maxRequest < v.round size
  · -- refused: nothing happens
    have hfits : MergeFits v os w (.srealloc p size) := fun _ h0 h1 => by omega
    refine ⟨fun _ => ⟨(0, w.heap), B, ?_, .refl h⟩, fun hf => absurd hfits hf⟩
    rw [Malloc.srealloc]
    simp only [if_pos hmax]
    rfl
  have hr0 : v.round size ≠ 0 := fun h0 => hmax (.inl h0)
  have hrmax : v.round size ≤ maxRequest := by omega
  by_cases hbig : mmapSize ≤ v.round size
  · -- the new block is mapped
    have hfits : MergeFits v os w (.srealloc p size) ↔
        ((mmap os w.heap.kernel (sizeT (v.round size + metaSize))).1 ≠ none → w.JoinFits p) := by
      simp only [MergeFits, if_pos hbig]
      exact ⟨fun hf => hf hp0 hr0 hrmax, fun hf _ _ _ => hf⟩
    rw [hfits]
    rcases Step.moveToMap clear small eights h hp
      (fun hs => absurd (hsmall hs) (Nat.not_lt.mpr hbig)) hr8 hbig hrmax with
      ⟨hno, s', hmk, hstep⟩ | ⟨hyes, q, s', hmk, hq0, hok, herr⟩
    · rw [srealloc_large hp0 hr0 hrmax hbig hmk, if_pos rfl]
      exact ⟨fun _ => ⟨(0, s'), B, rfl, hstep⟩, fun hf => absurd (fun hy => absurd hno hy) hf⟩
    · rw [srealloc_large hp0 hr0 hrmax hbig hmk, if_neg hq0]
      refine ⟨fun hf => ?_, fun hf => ?_⟩
      · obtain ⟨s'', B', hfree, hstep⟩ := hok (hf hyes)
        refine ⟨(q, s''), B', by rw [hfree]; rfl, ?_⟩
        simp only [if_neg hq0]
        exact hstep
      · rw [herr fun hj => hf fun _ => hj]
        rfl
  have hlt : v.round size < mmapSize := Nat.not_le.mp hbig
  have hfits : MergeFits v os w (.srealloc p size) ↔ (w.sizeOf p < mmapSize →
      ReallocFits (w.heap.freeLeft (p - metaSize)) (w.sizeOf p)
        (w.heap.freeRight (p - metaSize)) (v.round size)) := by
    simp only [MergeFits, if_neg hbig]
    exact ⟨fun hf => hf hp0 hr0 hrmax, fun hf _ _ _ => hf⟩
  rw [hfits]
  rcases h.cases hp with ⟨L, m, R, rfl, hm, rfl⟩ | ⟨r, hr, rfl⟩
  · have hmem : m ∈ L ++ m :: R := by simp
    have hms := h.rep.small m hmem
    have hd' : v = .malloc4 ∨
        ¬BranchD (freeLastBytes L) m.size (freeHeadBytes R) (v.round size) := by
      refine hd.imp_right fun hn => ?_
      have := hn hp0 hr0 hlt
      rw [h.sizeOf_block hmem, payload_sub, h.rep.freeLeft_eq, h.rep.freeRight_eq] at this
      exact this hms
    obtain ⟨hok, herr⟩ := srealloc_heap size h.rep hm hr0 hlt hd'
    rw [h.sizeOf_block hmem, payload_sub, h.rep.freeLeft_eq, h.rep.freeRight_eq]
    refine ⟨fun hf => ?_, fun hf => herr fun hfit => hf fun _ => hfit⟩
    obtain ⟨x, hrun, hx, -⟩ := hok (hf hms)
    obtain ⟨B', hstep⟩ := Step.realloc clear small eights h hm hr0 hr8 hx fun hc => by
      have := hclear hc hp0 hr0
      rwa [h.sizeOf_block hmem, payload_sub, h.rep.freeLeft_eq, h.rep.freeRight_eq] at this
    exact ⟨x, B', hrun, hstep⟩
  · -- a mapped block that is too small to be split stays as it is
    have hbig' := (h.mapped.size r hr).2
    have hsz : w.sizeOf (r.1 + metaSize) = w.heap.get .size r.1 := by
      rw [World.sizeOf, Nat.add_sub_cancel]
    have hw := h.sizeOf_map hr
    have hword := (h.mapped.range r hr).2.1
    rw [hsz] at hw ⊢
    have hkeep := hsplit hp0 (by rw [hsz]; exact hbig') hr0 hlt
    rw [hsz] at hkeep
    refine ⟨fun _ => ⟨(r.1 + metaSize, w.heap), B, ?_, ?_⟩, fun hf => absurd (fun hl => ?_) hf⟩
    · have hsub : subT (w.heap.get .size r.1) (v.round size) =
          w.heap.get .size r.1 - v.round size := subT_of_le (by omega) (by omega)
      rw [Malloc.srealloc]
      simp only [if_neg hmax, if_neg hp0, if_neg hbig, Nat.add_sub_cancel, ge_iff_le, hsub]
      rw [if_pos (by omega), if_neg (by omega)]
      rfl
    · simp only [if_neg hp0]
      have hperm := List.perm_cons_erase hp
      exact .of_keeps h (.refl ∅ B w.heap) h.rep
        (fun p => (hperm.mem_iff (a := p)).symm.trans (h.live p)) (hperm.nodup_iff.mp h.nodup)
        (fun p hp _ => ⟨hperm.mem_iff.mp hp, fun _ _ _ _ ho => ho.elim⟩) (fun _ hB => hB)
        fun _ _ hB => hB
    · omega

theorem le_round (hsize : IsWord size) (h0 : v.round size ≠ 0) : size ≤ v.round size := by
  unfold IsWord at hsize
  cases v with
  | malloc3 => exact le_rfl
  | malloc4 =>
      simp only [Version.round, roundUp, sizeT] at *
      split_ifs at * <;> omega

/-- `scalloc`: the zeros stay inside the new block. -/
theorem Step.scalloc (v : Version) (num size : Nat) (clear small eights : Prop) (h : Inv os w B)
    (hsmall : small → v.round (sizeT (num * size)) < mmapSize)
    (hr8 : eights → 8 ∣ v.round (sizeT (num * size))) :
    ∃ x B', scalloc v os w.heap num size = .ok x ∧
      Step os ∅ clear small eights w B (w.give x) B' := by
  obtain ⟨x, B', hrun, hstep, hlen⟩ := Step.smalloc v _ clear small eights h hsmall hr8
  by_cases hx : x.1 = 0
  · refine ⟨(0, x.2), B', ?_, ?_⟩
    · rw [Malloc.scalloc, hrun, ok_bind]
      exact if_pos hx
    · rw [World.give, if_pos hx] at hstep
      rw [World.give, if_pos rfl]
      exact hstep
  · have hword : IsWord (sizeT (num * size)) := by
      unfold IsWord sizeT
      omega
    obtain ⟨h0, hle⟩ := hlen hx
    have hfit := (le_round hword h0).trans hle
    refine ⟨(x.1, { x.2 with mem := x.2.mem.fillBytes x.1 (sizeT (num * size)) 0 }), B', ?_, ?_⟩
    · rw [Malloc.scalloc, hrun, ok_bind]
      exact if_neg hx
    · have hwrite := Step.write clear small eights hstep.inv (World.mem_give hx)
        (x.2.mem.fillBytes x.1 (sizeT (num * size)) 0)
        fun y hy => Mem.fillBytes_of_outside _ (by omega)
      have hnew : x.1 ∉ w.live := by
        have := hstep.inv.nodup
        rw [World.give, if_neg hx] at this
        exact (List.nodup_cons.mp this).1
      refine (hstep.trans hwrite (fun r _ hm => ?_) hstep.munmaps_eq).retouch h ?_
      · exact absurd (congrArg List.length hm) (by simp [World.give])
      · rintro p hp (hm | hm)
        · exact hm
        · exact absurd (hm ▸ hp) hnew

/-- `malloc_4.cpp` rounds up to a multiple of eight, also where that wraps. -/
theorem dvd_round (v : Version) (size : Nat) (hv : v = .malloc4) : 8 ∣ v.round size := by
  subst hv
  unfold Version.round roundUp sizeT
  dsimp only
  split_ifs <;> omega

/-- **One event.** A legal event faults exactly when a merge would make a
block of `MMAP_SIZE` bytes; otherwise it is a step. -/
theorem exec_step {e : Event} (h : Inv os w B) (hlegal : Legal w e) (hsplit : NoMappedSplit v w e)
    (hd : v = .malloc4 ∨ NoBranchD v w e) :
    (MergeFits v os w e → ∃ w' B', exec v os w e = .ok w' ∧
      Step os e.touches (SplitClear v w e) (Small v e) (v = .malloc4) w B w' B') ∧
    (¬MergeFits v os w e → exec v os w e = .error .addIndex) := by
  cases e with
  | smalloc size =>
      refine ⟨fun _ => ?_, fun hf => absurd trivial hf⟩
      obtain ⟨x, B', hrun, hstep, -⟩ := Step.smalloc v size _ _ _ h
        (fun hs : Small v (.smalloc size) => hs) (dvd_round v size)
      exact ⟨_, B', by rw [exec, hrun]; rfl, hstep⟩
  | scalloc num size =>
      refine ⟨fun _ => ?_, fun hf => absurd trivial hf⟩
      obtain ⟨x, B', hrun, hstep⟩ := Step.scalloc v num size _ _ _ h
        (fun hs : Small v (.scalloc num size) => hs) (dvd_round v _)
      exact ⟨_, B', by rw [exec, hrun]; rfl, hstep⟩
  | srealloc oldp size =>
      rcases hlegal.1 with rfl | hp
      · -- `srealloc(NULL, size)` is `smalloc(size)`, or refused like it
        refine ⟨fun _ => ?_, fun hf => absurd (fun h0 => absurd rfl h0) hf⟩
        have herase : w.live.erase 0 = w.live := List.erase_of_not_mem h.zero_notMem
        by_cases hmax : v.round size = 0 ∨ maxRequest < v.round size
        · have hrun : srealloc v os w.heap 0 size = .ok (0, w.heap) := by
            rw [srealloc]
            simp only [if_pos hmax]
            rfl
          exact ⟨w, B, by rw [exec, hrun]; rfl, .refl h⟩
        · obtain ⟨x, B', hsm, hstep, -⟩ := Step.smalloc v (v.round size)
            (SplitClear v w (.srealloc 0 size)) (Small v (.srealloc 0 size)) (v = .malloc4) h
            (fun hs => by rw [round_round]; exact hs) (dvd_round v _)
          have hrun : srealloc v os w.heap 0 size = .ok x := by
            rw [srealloc]
            simp only [if_neg hmax, if_true, hsm]
          refine ⟨_, B', by rw [exec, hrun]; rfl, ?_⟩
          rw [herase]
          exact hstep.retouch h fun p _ hp => hp.elim
      · obtain ⟨hok, herr⟩ := Step.srealloc h hp hsplit hd
          (fun hs : Small v (.srealloc oldp size) => hs) (fun hc => hc) (dvd_round v size)
        refine ⟨fun hf => ?_, fun hf => by rw [exec, herr hf]; rfl⟩
        obtain ⟨x, B', hrun, hstep⟩ := hok hf
        exact ⟨_, B', by rw [exec, hrun]; rfl, hstep⟩
  | sfree p =>
      rcases hlegal with rfl | hp
      · refine ⟨fun _ => ⟨w, B, ?_, .refl h⟩, fun hf => absurd (fun h0 => absurd rfl h0) hf⟩
        have hrun : sfree w.heap 0 = .ok w.heap := rfl
        rw [exec, hrun, List.erase_of_not_mem h.zero_notMem]
        rfl
      · have hp0 : p ≠ 0 := fun h0 => h.zero_notMem (h0 ▸ hp)
        obtain ⟨hok, herr⟩ := Step.sfree (SplitClear v w (.sfree p))
          (Small v (.sfree p)) (v = .malloc4) h hp
        refine ⟨fun hf => ?_, fun hf => ?_⟩
        · obtain ⟨s', B', hrun, hstep⟩ := hok (hf hp0)
          exact ⟨_, B', by rw [exec, hrun]; rfl, hstep⟩
        · rw [exec, herr fun hj => hf fun _ => hj]
          rfl
  | write p off byte =>
      refine ⟨fun _ => ⟨_, B, rfl, .write _ _ _ h hlegal.1 _ fun x hx => ?_⟩,
        fun hf => absurd trivial hf⟩
      have hoff := hlegal.2
      exact Function.update_of_ne (by omega) _ _

end Calls

end OsAllHw.Malloc
