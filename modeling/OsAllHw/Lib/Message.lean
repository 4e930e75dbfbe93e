import Mathlib

/-!
# Messages: lines, an empty line, a body

The format of the headers of many text protocols. A line ends with the pair
`cr`, `lf`; the first empty line ends the head.
-/

namespace Lib

section Message

variable {α : Type} [DecidableEq α] {cr lf : α}

/-- The first line and what follows it. -/
def nextLine (cr lf : α) : List α → Option (List α × List α)
  | a :: b :: l =>
      if a = cr ∧ b = lf then some ([], l)
      else (nextLine cr lf (b :: l)).map fun r => (a :: r.1, r.2)
  | _ => none

/-- At most so many lines up to an empty one, and what follows that. -/
def headLines (cr lf : α) : Nat → List α → Option (List (List α) × List α)
  | 0, _ => none
  | n + 1, l =>
      match nextLine cr lf l with
      | none => none
      | some ([], body) => some ([], body)
      | some (line, rest) => (headLines cr lf n rest).map fun r => (line :: r.1, r.2)

/-- The head and the body of a message. -/
def readMessage (cr lf : α) (l : List α) : Option (List (List α) × List α) :=
  headLines cr lf (l.length + 1) l

/-- The lines of a head without the empty one. -/
def renderLines (cr lf : α) (lines : List (List α)) : List α :=
  lines.flatMap fun line => line ++ [cr, lf]

def renderMessage (cr lf : α) (lines : List (List α)) (body : List α) : List α :=
  renderLines cr lf lines ++ cr :: lf :: body

/-- A line that can stand in a head. -/
def HeadLine (lf : α) (line : List α) : Prop := line ≠ [] ∧ lf ∉ line

instance (line : List α) : Decidable (HeadLine lf line) := inferInstanceAs (Decidable (_ ∧ _))

theorem nextLine_append (hne : cr ≠ lf) {line : List α} (h : lf ∉ line) (l : List α) :
    nextLine cr lf (line ++ cr :: lf :: l) = some (line, l) := by
  induction line with
  | nil => simp [nextLine]
  | cons a line ih =>
      obtain ⟨-, hline⟩ := not_or.mp (mt List.mem_cons.mpr h)
      have hrest := ih hline
      cases line with
      | nil =>
          rw [List.nil_append] at hrest
          change nextLine cr lf (a :: cr :: lf :: l) = _
          rw [nextLine, if_neg fun he => hne he.2, hrest]
          rfl
      | cons b line =>
          have hb : b ≠ lf := by
            rintro rfl
            exact hline List.mem_cons_self
          rw [List.cons_append] at hrest
          change nextLine cr lf (a :: b :: (line ++ cr :: lf :: l)) = _
          rw [nextLine, if_neg fun he => hb he.2, hrest]
          rfl

/-- **Round trip**: a message is read back as it was written. -/
theorem readMessage_render (hne : cr ≠ lf) {lines : List (List α)}
    (h : ∀ line ∈ lines, HeadLine lf line) (body : List α) :
    readMessage cr lf (renderMessage cr lf lines body) = some (lines, body) := by
  have hhead : ∀ n, lines.length < n →
      headLines cr lf n (renderMessage cr lf lines body) = some (lines, body) := by
    induction lines with
    | nil =>
        intro n hn
        obtain ⟨n, rfl⟩ := Nat.exists_eq_succ_of_ne_zero hn.ne'
        simp [headLines, renderMessage, renderLines, nextLine]
    | cons line lines ih =>
        intro n hn
        obtain ⟨n, rfl⟩ := Nat.exists_eq_succ_of_ne_zero (Nat.ne_zero_of_lt hn)
        obtain ⟨hline, hlines⟩ := List.forall_mem_cons.mp h
        have hsplit : renderMessage cr lf (line :: lines) body =
            line ++ cr :: lf :: renderMessage cr lf lines body := by
          simp [renderMessage, renderLines]
        obtain ⟨a, line', rfl⟩ := List.exists_cons_of_ne_nil hline.1
        rw [hsplit, headLines, nextLine_append hne hline.2]
        simp only [ih hlines n (by simpa using hn), Option.map_some]
  refine hhead _ (Nat.lt_succ_of_le ?_)
  -- each line has two characters at least
  have hlen : lines.length ≤ (renderLines cr lf lines).length := by
    clear hhead h
    induction lines with
    | nil => exact le_rfl
    | cons line lines ih =>
        simp only [renderLines, List.flatMap_cons, List.length_append, List.length_cons] at ih ⊢
        omega
  rw [renderMessage, List.length_append]
  omega

omit [DecidableEq α] in
/-- A head may be written in two parts. -/
theorem renderLines_append (lines more : List (List α)) (body : List α) :
    renderLines cr lf lines ++ renderMessage cr lf more body =
      renderMessage cr lf (lines ++ more) body := by
  rw [renderMessage, renderMessage, renderLines, renderLines, renderLines, List.flatMap_append,
    List.append_assoc]

/-- The value of the first line with the given name. -/
def field (name : List α) : List (List α) → Option (List α)
  | [] => none
  | line :: lines => if name <+: line then some (line.drop name.length) else field name lines

/-- Two texts of which one may begin with the other. -/
def Clash (m n : List α) : Prop := m.take n.length = n.take m.length

instance (m n : List α) : Decidable (Clash m n) := inferInstanceAs (Decidable (_ = _))

omit [DecidableEq α] in
theorem not_prefix_of_not_clash {name m : List α} (h : ¬Clash m name) (value : List α) :
    ¬name <+: m ++ value := by
  rintro ⟨rest, hrest⟩
  have htake := congrArg (List.take (min m.length name.length)) hrest
  rw [List.take_append_of_le_length (Nat.min_le_right ..),
    List.take_append_of_le_length (Nat.min_le_left ..)] at htake
  have hle : ∀ l : List α, l.take (min m.length name.length) = (l.take name.length).take m.length :=
    fun l => by rw [List.take_take]
  refine h ?_
  have hm : m.take (min m.length name.length) = m.take name.length := by
    rw [Nat.min_comm, ← List.take_eq_take_min]
  have hn : name.take (min m.length name.length) = name.take m.length := by
    rw [← List.take_eq_take_min]
  rw [Clash, ← hm, ← hn, htake]

/-- Each name is found where it stands, if no two of them clash. -/
theorem field_zipWith {names : List (List α)} (values more : List (List α)) {name value : List α}
    (i : Nat) (h : names.Pairwise fun m n => ¬Clash m n) (hname : names[i]? = some name)
    (hvalue : values[i]? = some value) :
    field name (List.zipWith (· ++ ·) names values ++ more) = some value := by
  induction names generalizing values i with
  | nil => cases hname
  | cons m names ih =>
      cases values with
      | nil => cases hvalue
      | cons v values =>
          rw [List.zipWith_cons_cons, List.cons_append]
          obtain ⟨hm, hnames⟩ := List.pairwise_cons.mp h
          cases i with
          | zero =>
              cases hname
              cases hvalue
              rw [field, if_pos (List.prefix_append name value), List.drop_left]
          | succ i =>
              rw [List.getElem?_cons_succ] at hname hvalue
              have hclash := hm name (List.mem_of_getElem? hname)
              rw [field, if_neg (not_prefix_of_not_clash hclash v)]
              exact ih values i hnames hname hvalue

omit [DecidableEq α] in
theorem headLine_zipWith {names values : List (List α)} (hnames : ∀ n ∈ names, HeadLine lf n)
    (hvalues : ∀ v ∈ values, lf ∉ v) :
    ∀ line ∈ List.zipWith (· ++ ·) names values, HeadLine lf line := by
  intro line hline
  induction names generalizing values with
  | nil => cases hline
  | cons n names ih =>
      cases values with
      | nil => cases hline
      | cons v values =>
          obtain ⟨hn, hnames⟩ := List.forall_mem_cons.mp hnames
          obtain ⟨hv, hvalues⟩ := List.forall_mem_cons.mp hvalues
          rw [List.zipWith_cons_cons, List.mem_cons] at hline
          obtain rfl | hline := hline
          · exact ⟨by simp [hn.1], by simp [hn.2, hv]⟩
          · exact ih hnames hvalues hline

end Message

/-! ## Decimal numerals -/

/-- The value of a numeral. -/
def numeral (l : List Char) : Option Nat :=
  if l ≠ [] ∧ l.all Char.isDigit then some (Nat.ofDigitChars 10 l 0) else none

theorem numeral_toDigits (n : Nat) : numeral (Nat.toDigits 10 n) = some n := by
  have hdigits : (Nat.toDigits 10 n).all Char.isDigit = true :=
    List.all_eq_true.mpr fun c hc => Nat.isDigit_of_mem_toDigits (by decide) le_rfl hc
  rw [numeral, if_pos ⟨Nat.toDigits_ne_nil, hdigits⟩]
  simp

/-- A numeral that is filled up with zeros to a width. -/
def padded (width n : Nat) : List Char :=
  List.replicate (width - (Nat.toDigits 10 n).length) '0' ++ Nat.toDigits 10 n

theorem ofDigitChars_zeros (k : Nat) (l : List Char) :
    Nat.ofDigitChars 10 (List.replicate k '0' ++ l) 0 = Nat.ofDigitChars 10 l 0 := by
  induction k with
  | zero => rfl
  | succ k ih =>
      rw [List.replicate_succ, List.cons_append, ← ih]
      simp [Nat.ofDigitChars_cons]

theorem numeral_padded (width n : Nat) : numeral (padded width n) = some n := by
  have hdigits : ∀ c ∈ Nat.toDigits 10 n, c.isDigit := fun c hc =>
    Nat.isDigit_of_mem_toDigits (by decide) le_rfl hc
  have hall : (padded width n).all Char.isDigit = true := by
    refine List.all_eq_true.mpr fun c hc => ?_
    obtain hc | hc := List.mem_append.mp hc
    · rw [List.eq_of_mem_replicate hc]
      decide
    · exact hdigits c hc
  have hne : padded width n ≠ [] := fun h =>
    Nat.toDigits_ne_nil (List.append_eq_nil_iff.mp h).2
  rw [numeral, if_pos ⟨hne, hall⟩, padded, ofDigitChars_zeros]
  simp

end Lib
