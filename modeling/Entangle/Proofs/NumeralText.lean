import Mathlib
import Entangle.Decimal.Numeral

/-!
# Decimal literals

A literal is made of decimal digits with at most one point and at least one digit. Behind an optional sign, and before an
optional exponent, it is read as its digits over the power of ten that its places give.
-/

namespace Entangle.Numeral

/-! ## Literals -/

/-- Decimal digits alone. -/
def Digits (cs : List Char) : Prop := ∀ c ∈ cs, c.isDigit = true

/-- A literal, the number that its digits make without the point, and how many of them stand after the point. -/
inductive Literal : List Char → ℕ → ℕ → Prop where
  | whole {digits : List Char} : digits ≠ [] → Digits digits → Literal digits (Nat.ofDigitChars 10 digits 0) 0
  | pointed {digits fraction : List Char} : digits ++ fraction ≠ [] → Digits digits → Digits fraction →
      Literal (digits ++ '.' :: fraction) (Nat.ofDigitChars 10 (digits ++ fraction) 0) fraction.length

/-- What holds of ten characters holds of every digit. -/
theorem of_isDigit (holds : Char → Prop) [DecidablePred holds]
    (each : ['0', '1', '2', '3', '4', '5', '6', '7', '8', '9'].all (holds ·) = true) {c : Char}
    (digit : c.isDigit = true) : holds c := by
  obtain ⟨low, high⟩ := Char.isDigit_iff_toNat.mp digit
  have known : Char.ofNat c.toNat ∈ ['0', '1', '2', '3', '4', '5', '6', '7', '8', '9'] := by
    change 48 ≤ c.toNat at low
    change c.toNat ≤ 57 at high
    interval_cases c.toNat <;> decide
  rw [Char.ofNat_toNat] at known
  exact of_decide_eq_true (List.all_eq_true.mp each c known)

theorem digit?_of_isDigit {base : ℕ} {c : Char} (digit : c.isDigit = true) : digit? base c = some (c.toNat - '0'.toNat) :=
  if_pos digit

/-! ## Mantissas -/

/-- The mantissa with digits behind it. -/
def Mantissa.extend (m : Mantissa) (digits : List Char) : Mantissa :=
  ⟨Nat.ofDigitChars 10 digits m.value, if m.sawPoint then m.places + digits.length else m.places, m.sawPoint,
    m.sawDigit || !digits.isEmpty⟩

theorem scanMantissa_digits {digits : List Char} (all : Digits digits) (m : Mantissa) (rest : List Char) :
    scanMantissa 10 m (digits ++ rest) = scanMantissa 10 (m.extend digits) rest := by
  induction digits generalizing m with
  | nil => simp [Mantissa.extend]
  | cons c digits ih =>
    rw [Digits, List.forall_mem_cons] at all
    have underscore : (c == '_') = false := of_isDigit (fun c => (c == '_') = false) (by decide) all.1
    have point : (c == '.') = false := of_isDigit (fun c => (c == '.') = false) (by decide) all.1
    rw [List.cons_append, scanMantissa, underscore, point, digit?_of_isDigit all.1]
    simp only [Bool.false_eq_true, if_false]
    rw [ih all.2]
    congr 1
    simp only [Mantissa.extend, Mantissa.push, Nat.ofDigitChars_cons, List.length_cons, List.isEmpty_cons, Mantissa.mk.injEq,
      true_and, Bool.not_false, Bool.or_true, Bool.true_or, and_true, mul_comm]
    split <;> simp [add_comm, add_left_comm]

/-- No mantissa goes on with the first character of a text. -/
def Stops (rest : List Char) : Prop := ∀ c ∈ rest.head?, c ≠ '_' ∧ c ≠ '.' ∧ digit? 10 c = none

theorem stops_nil : Stops [] := by simp [Stops]

theorem scanMantissa_stops {rest : List Char} (stops : Stops rest) (m : Mantissa) : scanMantissa 10 m rest = (m, rest) := by
  cases rest with
  | nil => rfl
  | cons c rest =>
    obtain ⟨underscore, point, digit⟩ := stops c rfl
    rw [scanMantissa, beq_false_of_ne underscore, beq_false_of_ne point, digit]
    rfl

/-- A literal is a mantissa. -/
theorem scanMantissa_literal {cs : List Char} {digits places : ℕ} (literal : Literal cs digits places) {rest : List Char}
    (stops : Stops rest) :
    ∃ m : Mantissa, scanMantissa 10 .empty (cs ++ rest) = (m, rest) ∧ m.value = digits ∧ m.places = places ∧
      m.sawDigit = true := by
  cases literal with
  | whole some all =>
    refine ⟨_, by rw [scanMantissa_digits all, scanMantissa_stops stops], rfl, rfl, ?_⟩
    simpa [Mantissa.extend, Mantissa.empty] using some
  | @pointed digits fraction some all all' =>
    let before : Mantissa := { Mantissa.extend .empty digits with sawPoint := true }
    have point (rest : List Char) : scanMantissa 10 (.extend .empty digits) ('.' :: rest) = scanMantissa 10 before rest := by
      rw [scanMantissa]
      rfl
    refine ⟨before.extend fraction, ?_, ?_, ?_, ?_⟩
    · rw [List.append_assoc, scanMantissa_digits all, List.cons_append, point, scanMantissa_digits all',
        scanMantissa_stops stops]
    · simp [before, Mantissa.extend, Mantissa.empty, Nat.ofDigitChars_append]
    · simp [before, Mantissa.extend, Mantissa.empty]
    · cases digits with
      | nil => simpa [before, Mantissa.extend, Mantissa.empty] using some
      | cons c digits => simp [before, Mantissa.extend, Mantissa.empty]

/-! ## Whole numerals -/

/-- The sign of a numeral. -/
def signText (negative : Bool) : List Char := if negative then ['-'] else []

/-- The first character of a literal is a digit or its point. -/
theorem Literal.head {cs : List Char} {digits places : ℕ} (literal : Literal cs digits places) :
    ∃ c rest, cs = c :: rest ∧ (c.isDigit = true ∨ c = '.') := by
  cases literal with
  | whole some all =>
    obtain ⟨c, rest, rfl⟩ := List.exists_cons_of_ne_nil some
    exact ⟨c, rest, rfl, .inl (all c List.mem_cons_self)⟩
  | @pointed digits fraction some all all' =>
    cases digits with
    | nil => exact ⟨'.', fraction, rfl, .inr rfl⟩
    | cons c digits => exact ⟨c, _, rfl, .inl (all c List.mem_cons_self)⟩

/-- Nothing but digits and the point. -/
theorem Literal.chars {cs : List Char} {digits places : ℕ} (literal : Literal cs digits places) :
    ∀ c ∈ cs, c.isDigit = true ∨ c = '.' := by
  intro c member
  cases literal with
  | whole some all => exact .inl (all c member)
  | pointed some all all' =>
    rcases List.mem_append.mp member with early | late
    · exact .inl (all c early)
    · exact (List.mem_cons.mp late).elim .inr fun late => .inl (all' c late)

theorem of_digit_or_point (holds : Char → Prop) [DecidablePred holds]
    (each : ['.', '0', '1', '2', '3', '4', '5', '6', '7', '8', '9'].all (holds ·) = true) {c : Char}
    (mark : c.isDigit = true ∨ c = '.') : holds c := by
  rw [List.all_cons, Bool.and_eq_true] at each
  rcases mark with digit | rfl
  · exact of_isDigit holds each.2 digit
  · exact of_decide_eq_true each.1

theorem dropSign_signText (negative : Bool) {c : Char} (mark : c.isDigit = true ∨ c = '.') (rest : List Char) :
    dropSign (signText negative ++ c :: rest) = (negative, c :: rest) := by
  cases negative with
  | true => rfl
  | false =>
    have unsigned : c ≠ '+' ∧ c ≠ '-' := of_digit_or_point (fun c => c ≠ '+' ∧ c ≠ '-') (by decide) mark
    change dropSign (c :: rest) = _
    unfold dropSign
    split
    next same => exact absurd (List.cons.inj same).1 unsigned.1
    next same => exact absurd (List.cons.inj same).1 unsigned.2
    next => rfl

theorem dropHexMark_of_decimal {cs : List Char} (decimal : ∀ c ∈ cs, c.toLower ≠ 'x') : dropHexMark cs = none := by
  unfold dropHexMark
  split
  next mark c rest =>
    rw [if_neg]
    exact fun hex => decimal mark (by simp) (beq_iff_eq.mp hex)
  next => rfl

theorem dropWord_of_ne {w c : Char} (other : c.toLower ≠ w) (word rest : List Char) :
    dropWord (w :: word) (c :: rest) = none := by
  rw [dropWord, if_neg]
  simp [other]

theorem scanInfinity_of_ne (negative : Bool) {c : Char} (other : c.toLower ≠ 'i') (rest : List Char) :
    scanInfinity negative (c :: rest) = none := by
  have infinity : dropWord "infinity".toList (c :: rest) = none :=
    dropWord_of_ne other "nfinity".toList rest
  have inf : dropWord "inf".toList (c :: rest) = none := dropWord_of_ne other "nf".toList rest
  rw [scanInfinity, infinity, inf]
  rfl

theorem scanWord_signText (negative : Bool) {c : Char} (mark : c.isDigit = true ∨ c = '.') (rest : List Char) :
    scanWord (signText negative ++ c :: rest) = none := by
  have plain : c ≠ '+' ∧ c ≠ '-' ∧ c.toLower ≠ 'i' ∧ c.toLower ≠ 'n' :=
    of_digit_or_point (fun c => c ≠ '+' ∧ c ≠ '-' ∧ c.toLower ≠ 'i' ∧ c.toLower ≠ 'n') (by decide) mark
  cases negative with
  | true => exact scanInfinity_of_ne true plain.2.2.1 rest
  | false =>
    change scanWord (c :: rest) = none
    unfold scanWord
    split
    next same => exact absurd (List.cons.inj same).1 plain.1
    next same => exact absurd (List.cons.inj same).1 plain.2.1
    next =>
      rw [scanInfinity_of_ne false plain.2.2.1]
      change (dropWord ('n' :: "an".toList) (c :: rest)).map _ = none
      rw [dropWord_of_ne plain.2.2.2]
      rfl

theorem underscoresFrom_of_notMem (hex : Bool) {seen : Seen} (last : seen ≠ .underscore) {cs : List Char}
    (none : '_' ∉ cs) : underscoresFrom hex seen cs = true := by
  induction cs generalizing seen with
  | nil => simpa [underscoresFrom] using last
  | cons c rest ih =>
    rw [List.mem_cons, not_or] at none
    have other : (c == '_') = false := beq_false_of_ne (Ne.symm none.1)
    have digit := @ih .digit (by decide) none.2
    have next := @ih .other (by decide) none.2
    rw [underscoresFrom, other, digit, next]
    simp [last]

theorem underscoresAllowed_of_notMem {cs : List Char} (none : '_' ∉ cs) : underscoresAllowed cs = true := by
  have body : '_' ∉ (dropSign cs).2 := by
    unfold dropSign
    split <;> simp_all
  unfold underscoresAllowed
  split
  next mark rest same =>
    rw [same] at body
    have later : '_' ∉ rest := fun member => body (by simp [member])
    rw [underscoresFrom_of_notMem _ (by decide) later, underscoresFrom_of_notMem _ (by decide) later,
      underscoresFrom_of_notMem _ (by decide) body]
    simp
  next => exact underscoresFrom_of_notMem _ (by decide) body

/-- A text of marks that begins with a digit or a point is scanned for its digits. -/
theorem scan_eq_scanDigits (negative : Bool) {c : Char} (mark : c.isDigit = true ∨ c = '.') {rest : List Char}
    (none : '_' ∉ c :: rest) {n : Numeral}
    (digits : scanDigits (signText negative ++ c :: rest) = some (n, [])) :
    scan (signText negative ++ c :: rest) = some (n, []) := by
  rw [scan, scanWord_signText negative mark, digits]
  refine Option.filter_eq_some_iff.mpr ⟨rfl, underscoresAllowed_of_notMem fun member => ?_⟩
  rcases List.mem_append.mp (List.mem_of_mem_take member) with sign | later
  · cases negative <;> simp [signText] at sign
  · exact none later

theorem scan_literal {cs : List Char} {digits places : ℕ} (literal : Literal cs digits places) (negative : Bool) :
    scan (signText negative ++ cs) = some (.decimal negative digits (-places), []) := by
  obtain ⟨c, rest, rfl, mark⟩ := literal.head
  have chars := literal.chars
  refine scan_eq_scanDigits negative mark ?_ ?_
  · intro member
    exact of_digit_or_point (· ≠ '_') (by decide) (chars _ member) rfl
  · obtain ⟨m, scanned, value, places, sawDigit⟩ := scanMantissa_literal literal stops_nil
    rw [List.append_nil] at scanned
    have decimal : dropHexMark (c :: rest) = none :=
      dropHexMark_of_decimal fun c member => of_digit_or_point (·.toLower ≠ 'x') (by decide) (chars c member)
    rw [scanDigits, dropSign_signText negative mark]
    simp only [decimal, scanned, value, places, sawDigit, Bool.not_true, Bool.false_eq_true, if_false]

/-- The double that a literal stands for. -/
def literalValue (digits places : ℕ) : Float := decimalValue digits (-places)

theorem read_literal {cs : List Char} {digits places : ℕ} (literal : Literal cs digits places) :
    read cs = if (literalValue digits places).isInf then .error .outOfRange else .ok (literalValue digits places) := by
  have scanned := scan_literal literal false
  change scan cs = _ at scanned
  rw [read, scanned]
  rfl

end Entangle.Numeral
