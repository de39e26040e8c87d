import Mathlib
import Entangle.Gate.Param
import Entangle.Proofs.DoubleRounding
import Entangle.Proofs.NumeralText

/-!
# Multiples of π

A multiple of π is written with an optional sign, an optional coefficient, an optional star, the letters `pi`, and an
optional divisor. Blanks may stand between the parts, but not after the sign. The parser takes each part as long as it
can, and it accepts exactly the texts of this form, each with one value.
-/

namespace Entangle

open Numeral (Digits Literal literalValue)

namespace Gate

/-! ## The form -/

/-- Blanks, as they stand between the parts of an expression. -/
def Gaps (cs : List Char) : Prop := ∀ c ∈ cs, Text.isGap c = true

/-- A literal and its value, which is not too large for a double. -/
def Factor (cs : List Char) (x : Float) : Prop :=
  ∃ digits places, Literal cs digits places ∧ literalValue digits places = x ∧ x.isInf = false

/-- What stands before π: a literal, or nothing for one. -/
inductive Coefficient : List Char → Float → Prop where
  | absent : Coefficient [] 1
  | written {cs : List Char} {x : Float} : Factor cs x → Coefficient cs x

/-- What stands after π: a slash and a literal that begins with a digit and is not zero, or nothing for one. -/
inductive Divisor : List Char → Float → Prop where
  | absent : Divisor [] 1
  | written {gaps gaps' cs : List Char} {c : Char} {x : Float} : Gaps gaps → Gaps gaps' → c.isDigit = true →
      Factor (c :: cs) x → (x == 0) = false → Divisor (gaps ++ '/' :: (gaps' ++ c :: cs)) x

/-- A multiple of π without a sign. -/
inductive Multiple : List Char → Float → Prop where
  | mk {coefficient gaps star gaps' divisor : List Char} {c d : Float} : Coefficient coefficient c → Gaps gaps →
      star = [] ∨ star = ['*'] → Gaps gaps' → Divisor divisor d →
      Multiple (coefficient ++ (gaps ++ (star ++ (gaps' ++ 'p' :: 'i' :: divisor)))) (c * Scalar.pi / d)

/-- A multiple of π and its value. -/
inductive PiAngle : List Char → Float → Prop where
  | plain {cs : List Char} {x : Float} : Multiple cs x → PiAngle cs x
  | negated {cs : List Char} {x : Float} : Multiple cs x → PiAngle ('-' :: cs) (-x)

namespace PiMultiple

/-! ## Runs of digits -/

/-- Digits with at most one point among them, or nothing. -/
def Span (cs : List Char) : Prop :=
  Digits cs ∨ ∃ digits fraction, cs = digits ++ '.' :: fraction ∧ Digits digits ∧ Digits fraction

theorem span_of_literal {cs : List Char} {digits places : ℕ} (literal : Literal cs digits places) : Span cs := by
  cases literal with
  | whole some all => exact .inl all
  | pointed some all all' => exact .inr ⟨_, _, rfl, all, all'⟩

/-- A run of digits is a literal unless it has none. -/
theorem Span.literal {cs : List Char} (span : Span cs) : cs = [] ∨ cs = ['.'] ∨ ∃ digits places, Literal cs digits places := by
  rcases span with all | ⟨digits, fraction, rfl, all, all'⟩
  · rcases eq_or_ne cs [] with none | some
    · exact .inl none
    · exact .inr (.inr ⟨_, _, .whole some all⟩)
  · rcases eq_or_ne (digits ++ fraction) [] with none | some
    · obtain ⟨rfl, rfl⟩ := List.append_eq_nil_iff.mp none
      exact .inr (.inl rfl)
    · exact .inr (.inr ⟨_, _, .pointed some all all'⟩)

theorem spanDecimal_append {cs rest : List Char} (span : Span cs) (ends : ∀ c ∈ rest.head?, c.isDigit = false ∧ c ≠ '.') :
    spanDecimal (cs ++ rest) = (cs, rest) := by
  have stop : rest.takeWhile Char.isDigit = [] ∧ rest.dropWhile Char.isDigit = rest := by
    cases rest with
    | nil => exact ⟨rfl, rfl⟩
    | cons c rest => 
      have other := (ends c rfl).1
      simp [other]
  rcases span with all | ⟨digits, fraction, rfl, all, all'⟩
  · rw [spanDecimal, List.takeWhile_append_of_pos all, List.dropWhile_append_of_pos all, stop.1, stop.2, List.append_nil]
    split
    next point => exact absurd rfl (ends '.' (by simp)).2
    next => rfl
  · rw [List.append_assoc, List.cons_append, spanDecimal, List.takeWhile_append_of_pos all,
      List.dropWhile_append_of_pos all]
    simp [List.takeWhile_append_of_pos all', List.dropWhile_append_of_pos all', stop]

theorem spanDecimal_spec (cs : List Char) : Span (spanDecimal cs).1 ∧ cs = (spanDecimal cs).1 ++ (spanDecimal cs).2 := by
  have digits (cs : List Char) : Digits (cs.takeWhile Char.isDigit) := fun c member => List.mem_takeWhile_imp member
  rw [spanDecimal]
  split
  next rest point =>
    refine ⟨.inr ⟨_, _, rfl, digits cs, digits rest⟩, ?_⟩
    rw [List.append_assoc, List.cons_append, List.takeWhile_append_dropWhile, ← point, List.takeWhile_append_dropWhile]
  next => exact ⟨.inl (digits cs), List.takeWhile_append_dropWhile.symm⟩

/-! ## Blanks and the star -/

theorem dropGaps_append {gaps rest : List Char} (blank : Gaps gaps) (ends : ∀ c ∈ rest.head?, Text.isGap c = false) :
    dropGaps (gaps ++ rest) = rest := by
  rw [dropGaps, List.dropWhile_append_of_pos blank]
  cases rest with
  | nil => rfl
  | cons c rest => exact List.dropWhile_cons_of_neg (by simp [ends c rfl])

theorem dropGaps_spec (cs : List Char) : ∃ gaps, Gaps gaps ∧ cs = gaps ++ dropGaps cs :=
  ⟨cs.takeWhile Text.isGap, fun _ member => List.mem_takeWhile_imp member, List.takeWhile_append_dropWhile.symm⟩

theorem dropStar_spec (cs : List Char) : ∃ star, (star = [] ∨ star = ['*']) ∧ cs = star ++ dropStar cs := by
  unfold dropStar
  split
  · exact ⟨['*'], .inr rfl, rfl⟩
  · exact ⟨[], .inl rfl, rfl⟩

/-- The blanks and the star before π. -/
theorem drop_spec (cs : List Char) : ∃ gaps star gaps', Gaps gaps ∧ (star = [] ∨ star = ['*']) ∧ Gaps gaps' ∧
    cs = gaps ++ (star ++ (gaps' ++ dropGaps (dropStar (dropGaps cs)))) := by
  obtain ⟨gaps, blank, first⟩ := dropGaps_spec cs
  obtain ⟨star, sign, second⟩ := dropStar_spec (dropGaps cs)
  obtain ⟨gaps', blank', third⟩ := dropGaps_spec (dropStar (dropGaps cs))
  exact ⟨gaps, star, gaps', blank, sign, blank', by rw [← third, ← second, ← first]⟩

theorem drop_append {gaps star gaps' : List Char} (blank : Gaps gaps) (sign : star = [] ∨ star = ['*']) (blank' : Gaps gaps')
    (rest : List Char) : dropGaps (dropStar (dropGaps (gaps ++ (star ++ (gaps' ++ 'p' :: rest))))) = 'p' :: rest := by
  have letter : ∀ c ∈ ('p' :: rest).head?, Text.isGap c = false := by simp [Text.isGap]
  rcases sign with rfl | rfl
  · have all : Gaps (gaps ++ gaps') := fun c member => (List.mem_append.mp member).elim (blank c) (blank' c)
    rw [List.nil_append, ← List.append_assoc, dropGaps_append all letter]
    exact @dropGaps_append [] ('p' :: rest) (by simp [Gaps]) letter
  · rw [dropGaps_append blank (by simp [Text.isGap])]
    exact dropGaps_append blank' letter

/-! ## Coefficients and divisors -/

theorem read_eq_ok_iff {cs : List Char} (span : Span cs) (some : cs ≠ []) {x : Float} :
    Numeral.read cs = .ok x ↔ Factor cs x := by
  have read {digits places : ℕ} (literal : Literal cs digits places) :
      Numeral.read cs = .ok x ↔ literalValue digits places = x ∧ x.isInf = false := by
    rw [Numeral.read_literal literal]
    cases large : (literalValue digits places).isInf with
    | true =>
      refine iff_of_false (by simp) ?_
      rintro ⟨rfl, small⟩
      rw [large] at small
      cases small
    | false =>
      rw [if_neg (by simp), Except.ok.injEq]
      exact ⟨fun same => ⟨same, same ▸ large⟩, And.left⟩
  constructor
  · intro known
    rcases span.literal with rfl | rfl | ⟨digits, places, literal⟩
    · exact absurd rfl some
    · cases known
    · exact ⟨digits, places, literal, (read literal).mp known⟩
  · rintro ⟨digits, places, literal, value⟩
    exact (read literal).mpr value

theorem span_of_factor {cs : List Char} {x : Float} (factor : Factor cs x) : Span cs := by
  obtain ⟨digits, places, literal, -⟩ := factor
  exact span_of_literal literal

theorem ne_nil_of_factor {cs : List Char} {x : Float} (factor : Factor cs x) : cs ≠ [] := by
  obtain ⟨digits, places, literal, -⟩ := factor
  obtain ⟨c, rest, rfl, -⟩ := literal.head
  exact List.cons_ne_nil c rest

theorem factor_of_ne_nil {cs : List Char} (some : cs ≠ []) : factor cs = (Numeral.read cs).toOption := by
  rw [factor, if_neg (by simpa using some)]

theorem toOption_eq_some {ε β : Type} {outcome : Except ε β} {result : β} :
    outcome.toOption = some result ↔ outcome = .ok result := by
  cases outcome <;> simp [Except.toOption]

theorem factor_eq_some_iff {cs : List Char} (span : Span cs) {x : Float} : factor cs = some x ↔ Coefficient cs x := by
  rcases eq_or_ne cs [] with rfl | filled
  · constructor
    · intro one
      obtain rfl := Option.some.inj one
      exact .absent
    · intro coefficient
      cases coefficient with
      | absent => rfl
      | written factor => exact absurd rfl (ne_nil_of_factor factor)
  · rw [factor_of_ne_nil filled, toOption_eq_some, read_eq_ok_iff span filled]
    constructor
    · exact .written
    · intro coefficient
      cases coefficient with
      | absent => exact absurd rfl filled
      | written factor => exact factor

theorem span_of_coefficient {cs : List Char} {x : Float} (coefficient : Coefficient cs x) : Span cs := by
  cases coefficient with
  | absent => exact .inl (by simp [Digits])
  | written factor => exact span_of_factor factor

/-- What is left of the value once the coefficient is known. -/
def divided (c : Float) (divisor : Option (List Char)) : Option Float :=
  match divisor with
  | none => some (c * Scalar.pi)
  | some text => do
      let d ← factor text
      if d == 0 then none else some (c * Scalar.pi / d)

theorem value?_eq (m : PiMultiple) : m.value? = (factor m.coefficient).bind fun c =>
    (divided c m.divisor).map fun size => if m.negative then -size else size := by
  obtain ⟨negative, coefficient, divisor⟩ := m
  rw [value?]
  cases factor coefficient with
  | none => rfl
  | some c =>
    cases divisor with
    | none => rfl
    | some text =>
      dsimp only [divided, Option.bind_some, Option.bind_eq_bind]
      cases factor text with
      | none => rfl
      | some d =>
        dsimp only [Option.bind_some]
        split <;> rfl

theorem divided_eq_some_iff_of_span {cs : List Char} (span : Span cs) (some : cs ≠ []) {c x : Float} :
    divided c (.some cs) = .some x ↔ ∃ d, Factor cs d ∧ (d == 0) = false ∧ c * Scalar.pi / d = x := by
  rw [divided, Option.bind_eq_bind, Option.bind_eq_some_iff]
  refine exists_congr fun d => ?_
  rw [factor_of_ne_nil some, toOption_eq_some, read_eq_ok_iff span some]
  refine and_congr_right fun _ => ?_
  cases zero : d == 0 <;> simp

/-- What the parser finds after π: nothing, or a slash and a run that begins with a digit. -/
theorem parseDivisor_spec {tail : List Char} {divisor : Option (List Char)} (parsed : parseDivisor tail = some divisor) :
    tail = [] ∧ divisor = none ∨ ∃ gaps gaps' c cs, Gaps gaps ∧ Gaps gaps' ∧ c.isDigit = true ∧ Span (c :: cs) ∧
      tail = gaps ++ '/' :: (gaps' ++ c :: cs) ∧ divisor = some (c :: cs) := by
  unfold parseDivisor at parsed
  split at parsed
  · exact .inl ⟨rfl, (Option.some.inj parsed).symm⟩
  obtain ⟨gaps, blank, split⟩ := dropGaps_spec tail
  split at parsed
  next rest slash =>
    obtain ⟨gaps', blank', split'⟩ := dropGaps_spec rest
    obtain ⟨span, parts⟩ := spanDecimal_spec (dropGaps rest)
    dsimp only at parsed
    split at parsed
    next first digits text empty =>
      rw [text] at span parts
      rw [empty, List.append_nil] at parts
      split at parsed
      next digit =>
        refine .inr ⟨gaps, gaps', first, digits, blank, blank', digit, span, ?_, text ▸ (Option.some.inj parsed).symm⟩
        rw [split, slash, split', parts]
      next => cases parsed
    next => cases parsed
  next => cases parsed

theorem parseDivisor_append {gaps gaps' cs : List Char} {c : Char} (blank : Gaps gaps) (blank' : Gaps gaps')
    (digit : c.isDigit = true) (span : Span (c :: cs)) :
    parseDivisor (gaps ++ '/' :: (gaps' ++ c :: cs)) = some (some (c :: cs)) := by
  have slash : dropGaps (gaps ++ '/' :: (gaps' ++ c :: cs)) = '/' :: (gaps' ++ c :: cs) :=
    dropGaps_append blank (by simp [Text.isGap])
  have inked : Text.isGap c = false := Numeral.of_isDigit (fun c => Text.isGap c = false) (by decide) digit
  have digits : dropGaps (gaps' ++ c :: cs) = c :: cs :=
    dropGaps_append blank' fun first found => by obtain rfl := Option.some.inj found; exact inked
  have whole := @spanDecimal_append (c :: cs) [] span (by simp)
  rw [List.append_nil] at whole
  rw [parseDivisor]
  · simp only [slash, digits, whole, digit, if_true]
  · simp

/-- The text after π is a divisor. -/
theorem divided_eq_some_iff {tail : List Char} {c x : Float} :
    (parseDivisor tail).bind (divided c) = some x ↔ ∃ d, Divisor tail d ∧ c * Scalar.pi / d = x := by
  constructor
  · intro known
    obtain ⟨divisor, parsed, known⟩ := Option.bind_eq_some_iff.mp known
    obtain ⟨rfl, rfl⟩ | ⟨gaps, gaps', first, cs, blank, blank', digit, span, rfl, rfl⟩ := parseDivisor_spec parsed
    · refine ⟨1, .absent, ?_⟩
      rw [Binary64.div_one]
      exact Option.some.inj known
    · obtain ⟨d, value, other, same⟩ := (divided_eq_some_iff_of_span span (List.cons_ne_nil _ _)).mp known
      exact ⟨d, .written blank blank' digit value other, same⟩
  · rintro ⟨d, divisor, rfl⟩
    cases divisor with
    | absent =>
      rw [Binary64.div_one]
      rfl
    | written blank blank' digit value other =>
      have span := span_of_factor value
      rw [parseDivisor_append blank blank' digit span, Option.bind_some]
      exact (divided_eq_some_iff_of_span span (ne_nil_of_factor value)).mpr ⟨d, value, other, rfl⟩

/-! ## The whole multiple -/

theorem not_decimal_of_isGap {c : Char} (gap : Text.isGap c = true) : c.isDigit = false ∧ c ≠ '.' := by
  simp only [Text.isGap, Bool.or_eq_true, beq_iff_eq] at gap
  rcases gap with (((rfl | rfl) | rfl) | rfl) | rfl <;> decide

/-- No run of digits goes on with what stands between a coefficient and π. -/
theorem ends_before_pi {gaps star gaps' : List Char} (blank : Gaps gaps) (sign : star = [] ∨ star = ['*'])
    (blank' : Gaps gaps') (rest : List Char) :
    ∀ c ∈ (gaps ++ (star ++ (gaps' ++ 'p' :: rest))).head?, c.isDigit = false ∧ c ≠ '.' := by
  have first {g : List Char} (blank : Gaps g) {tail : List Char} (later : ∀ c ∈ tail.head?, c.isDigit = false ∧ c ≠ '.') :
      ∀ c ∈ (g ++ tail).head?, c.isDigit = false ∧ c ≠ '.' := by
    cases g with
    | nil => exact later
    | cons c g =>
      intro d found
      obtain rfl := Option.some.inj found
      exact not_decimal_of_isGap (blank c List.mem_cons_self)
  have letter : ∀ c ∈ ('p' :: rest).head?, c.isDigit = false ∧ c ≠ '.' := by simp
  refine first blank ?_
  rcases sign with rfl | rfl
  · exact first blank' letter
  · simp

/-- The value of a multiple without its sign. -/
def magnitude (cs : List Char) : Option Float :=
  match dropGaps (dropStar (dropGaps (spanDecimal cs).2)) with
  | 'p' :: 'i' :: tail => (factor (spanDecimal cs).1).bind fun c => (parseDivisor tail).bind (divided c)
  | _ => none

theorem magnitude_eq_some_iff {cs : List Char} {x : Float} : magnitude cs = some x ↔ Multiple cs x := by
  obtain ⟨span, parts⟩ := spanDecimal_spec cs
  constructor
  · intro known
    unfold magnitude at known
    split at known
    next tail letters =>
      obtain ⟨gaps, star, gaps', blank, sign, blank', rest⟩ := drop_spec (spanDecimal cs).2
      obtain ⟨c, coefficient, known⟩ := Option.bind_eq_some_iff.mp known
      obtain ⟨d, divisor, rfl⟩ := divided_eq_some_iff.mp known
      rw [parts, rest, letters]
      exact .mk ((factor_eq_some_iff span).mp coefficient) blank sign blank' divisor
    next => cases known
  · intro multiple
    cases multiple with
    | @mk coefficient gaps star gaps' divisor c d known blank sign blank' known' =>
      rw [magnitude, spanDecimal_append (span_of_coefficient known) (ends_before_pi blank sign blank' _), drop_append blank sign blank']
      dsimp only
      rw [(factor_eq_some_iff (span_of_coefficient known)).mpr known]
      exact divided_eq_some_iff.mpr ⟨d, known', rfl⟩

/-- The sign is put on at the end. -/
theorem bind_value? (cs : List Char) : (parse cs).bind value? =
    if cs.head? = some '-' then (magnitude cs.tail).map (fun x => -x) else magnitude cs := by
  have signed (negative : Bool) (body : List Char) :
      (match dropGaps (dropStar (dropGaps (spanDecimal body).2)) with
        | 'p' :: 'i' :: tail =>
            (parseDivisor tail).map fun divisor => (⟨negative, (spanDecimal body).1, divisor⟩ : PiMultiple)
        | _ => none).bind value? = (magnitude body).map fun x => if negative then -x else x := by
    rw [magnitude]
    split
    next tail _ =>
      cases parseDivisor tail with
      | none => cases factor (spanDecimal body).1 <;> rfl
      | some divisor =>
        rw [Option.map_some, Option.bind_some, value?_eq]
        cases factor (spanDecimal body).1 <;> rfl
    next => rfl
  by_cases minus : cs.head? = some '-'
  · obtain ⟨c, rest, rfl⟩ := List.exists_cons_of_ne_nil (l := cs) (by rintro rfl; cases minus)
    obtain rfl := Option.some.inj minus
    rw [if_pos minus]
    exact signed true rest
  · have unsigned : parse cs = match dropGaps (dropStar (dropGaps (spanDecimal cs).2)) with
        | 'p' :: 'i' :: tail =>
            (parseDivisor tail).map fun divisor => (⟨false, (spanDecimal cs).1, divisor⟩ : PiMultiple)
        | _ => none := by
      cases cs with
      | nil => rfl
      | cons c rest =>
        have other : c ≠ '-' := fun same => minus (congrArg some same)
        refine (parse.eq_2 _ ?_).trans rfl
        intro rest' same
        exact other (List.cons.inj same).1
    rw [if_neg minus, unsigned, signed false cs]
    cases magnitude cs <;> rfl

/-- No multiple without a sign begins with one. -/
theorem head?_of_multiple {cs : List Char} {x : Float} (multiple : Multiple cs x) : cs.head? ≠ some '-' := by
  intro minus
  have known := magnitude_eq_some_iff.mpr multiple
  obtain ⟨c, rest, rfl⟩ := List.exists_cons_of_ne_nil (l := cs) (by rintro rfl; cases minus)
  obtain rfl := Option.some.inj minus
  cases known

/-- A multiple of π is parsed to its value. -/
theorem parse_eq_some_iff {cs : List Char} {x : Float} : (parse cs).bind value? = some x ↔ PiAngle cs x := by
  rw [bind_value?]
  constructor
  · intro known
    split at known
    next minus =>
      obtain ⟨c, rest, rfl⟩ := List.exists_cons_of_ne_nil (l := cs) (by rintro rfl; cases minus)
      obtain rfl := Option.some.inj minus
      obtain ⟨y, value, rfl⟩ := Option.map_eq_some_iff.mp known
      exact .negated (magnitude_eq_some_iff.mp value)
    next => exact .plain (magnitude_eq_some_iff.mp known)
  · intro angle
    cases angle with
    | plain multiple =>
      rw [if_neg (head?_of_multiple multiple)]
      exact magnitude_eq_some_iff.mpr multiple
    | @negated cs x multiple =>
      rw [if_pos (show ('-' :: cs).head? = some '-' from rfl), List.tail_cons, magnitude_eq_some_iff.mpr multiple]
      rfl

end PiMultiple

end Gate

end Entangle
