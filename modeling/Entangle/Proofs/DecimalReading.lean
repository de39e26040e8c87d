import Mathlib
import Entangle.Proofs.DecimalText
import Entangle.Proofs.NumeralText
import Entangle.Proofs.ShortestDecimals

/-!
# Decimals read back

Whichever layout a decimal is written in, its text is the numeral of a number equal to it, and the shortest decimal of a
double rounds to that double. So the text of a finite double is read back as the double, with the sign of a zero.
-/

namespace Entangle

/-- What holds of fourteen characters holds of every mark. -/
theorem Decimal.of_mark (holds : Char → Prop) [DecidablePred holds]
    (each : ['.', 'e', '+', '-', '0', '1', '2', '3', '4', '5', '6', '7', '8', '9'].all (holds ·) = true) {c : Char}
    (mark : Decimal.Mark c) : holds c := by
  rw [show ['.', 'e', '+', '-', '0', '1', '2', '3', '4', '5', '6', '7', '8', '9'] =
    ['.', 'e', '+', '-'] ++ ['0', '1', '2', '3', '4', '5', '6', '7', '8', '9'] from rfl, List.all_append, Bool.and_eq_true] at each
  rcases mark with digit | other
  · exact Numeral.of_isDigit holds each.2 digit
  · exact of_decide_eq_true (List.all_eq_true.mp each.1 c other)

/-! ## Numerals with an exponent -/

namespace Numeral

theorem scanExponentDigits_digits {digits : List Char} (all : Digits digits) {e : ℕ}
    (short : Nat.ofDigitChars 10 digits e < 10000) : scanExponentDigits e digits = (Nat.ofDigitChars 10 digits e, []) := by
  induction digits generalizing e with
  | nil => rfl
  | cons c digits ih =>
    rw [Digits, List.forall_mem_cons] at all
    have underscore : (c == '_') = false := of_isDigit (fun c => (c == '_') = false) (by decide) all.1
    rw [Nat.ofDigitChars_cons] at short ⊢
    have below : e < 10000 := by
      rw [Nat.ofDigitChars_eq_ofDigitChars_zero] at short
      have := Nat.le_mul_of_pos_left (10 * e) (Nat.pow_pos (n := digits.length) (show 0 < 10 by omega))
      rw [mul_add] at short
      omega
    rw [scanExponentDigits, underscore, if_neg (by decide), if_pos all.1, if_pos below, mul_comm e]
    exact ih all.2 short

/-- The sign of a written exponent. -/
def exponentSign (negative : Bool) : Char := if negative then '-' else '+'

theorem scanExponent_signed {digits : List Char} (some : digits ≠ []) (all : Digits digits)
    (short : Nat.ofDigitChars 10 digits 0 < 10000) (negative : Bool) :
    scanExponent (exponentSign negative :: digits) =
      .some (if negative then -(Nat.ofDigitChars 10 digits 0 : ℤ) else Nat.ofDigitChars 10 digits 0, []) := by
  obtain ⟨c, rest, rfl⟩ := List.exists_cons_of_ne_nil some
  have digit := all c List.mem_cons_self
  have scanned := scanExponentDigits_digits all short
  cases negative with
  | true =>
    change (if c.isDigit then Option.some (-((scanExponentDigits 0 (c :: rest)).1 : ℤ), (scanExponentDigits 0 (c :: rest)).2)
      else none) = _
    rw [if_pos digit, scanned]
    rfl
  | false =>
    change (if c.isDigit then Option.some (((scanExponentDigits 0 (c :: rest)).1 : ℤ), (scanExponentDigits 0 (c :: rest)).2)
      else none) = _
    rw [if_pos digit, scanned]
    rfl

/-- A literal with an exponent behind it. -/
theorem scan_scientific {cs power : List Char} {digits places : ℕ} {n : ℤ} (literal : Literal cs digits places)
    (negative : Bool) (marks : ∀ c ∈ power, Decimal.Mark c) (scanned : scanExponent power = some (n, [])) :
    scan (signText negative ++ (cs ++ 'e' :: power)) = some (.decimal negative digits (n - places), []) := by
  obtain ⟨c, rest, rfl, mark⟩ := literal.head
  have each : ∀ c' ∈ c :: (rest ++ 'e' :: power), Decimal.Mark c' := by
    intro c' member
    rcases List.mem_append.mp (show c' ∈ (c :: rest) ++ 'e' :: power from member) with early | late
    · exact (literal.chars c' early).imp_right fun point => by simp [point]
    · rcases List.mem_cons.mp late with rfl | late
      · exact .inr (by decide)
      · exact marks c' late
  refine scan_eq_scanDigits negative mark (fun member => Decimal.of_mark (· ≠ '_') (by decide) (each _ member) rfl) ?_
  have stops : Stops ('e' :: power) := by
    intro c' first
    obtain rfl := Option.some.inj first
    decide
  obtain ⟨m, mantissa, value, point, sawDigit⟩ := scanMantissa_literal literal stops
  have decimal : dropHexMark (c :: (rest ++ 'e' :: power)) = none :=
    dropHexMark_of_decimal fun c' member => Decimal.of_mark (·.toLower ≠ 'x') (by decide) (each c' member)
  rw [scanDigits, dropSign_signText negative mark]
  change scanMantissa 10 .empty (c :: (rest ++ 'e' :: power)) = _ at mantissa
  simp only [decimal, mantissa, value, point, sawDigit, Bool.not_true, Bool.false_eq_true, if_false]
  rw [if_pos (by decide), scanned]
  rfl

end Numeral

/-! ## The numeral of a decimal -/

namespace Decimal

open Float.Model.UnpackedFloat (Sign)
open Binary64 (Canonical encode encoded_of_canonical eq_of_view isFinite_iff isInf_view isNaN_view isNegative parts reading
  signBit view view_encode view_neg)
open Numeral (Digits Literal decimalValue exponentSign scan scanExponent_signed scan_literal scan_scientific signText withSign)

theorem digits_digitText (n : ℕ) : Digits (digitText n) := fun _ => isDigit_of_mem_digitText

theorem ofDigitChars_padLeft (width : ℕ) (n : ℕ) : Nat.ofDigitChars 10 (padLeft width '0' (digitText n)) 0 = n := by
  rw [padLeft, Nat.ofDigitChars_append, Nat.ofDigitChars_replicate_zero, mul_zero, digitText, Nat.ofDigitChars_ten_toDigits]

/-- In plain notation a decimal is a literal of its value. -/
theorem literal_plainText (d : Decimal) :
    ∃ digits places, Literal (plainText d) digits places ∧ (digits : ℚ) * 10 ^ (-(places : ℤ)) = d.value := by
  rw [plainText]
  split_ifs with whole
  · have all : Digits (digitText d.digits ++ List.replicate d.exponent.toNat '0') := by
      intro c member
      rcases List.mem_append.mp member with digit | zero
      · exact isDigit_of_mem_digitText digit
      · rw [(List.mem_replicate.mp zero).2]
        rfl
    refine ⟨_, 0, .whole (by simp [digitText, Nat.toDigits_ne_nil]) all, ?_⟩
    rw [Nat.ofDigitChars_append, Nat.ofDigitChars_replicate_zero, digitText, Nat.ofDigitChars_ten_toDigits, value]
    obtain ⟨k, power⟩ := Int.eq_ofNat_of_zero_le whole
    rw [power, Int.toNat_natCast, zpow_natCast]
    push_cast
    ring
  · dsimp only
    generalize places_eq : (-d.exponent).toNat = places
    generalize padded_eq : padLeft (places + 1) '0' (digitText d.digits) = padded
    have all : Digits padded := fun c member => isDigit_of_mem_padLeft (digits_digitText d.digits) (padded_eq ▸ member)
    have long : places + 1 ≤ padded.length := by
      rw [← padded_eq, padLeft, List.length_append, List.length_replicate]
      omega
    have literal := @Literal.pointed (padded.take (padded.length - places)) (padded.drop (padded.length - places))
      (by
        rw [List.take_append_drop]
        exact List.ne_nil_of_length_pos (by omega))
      (fun c member => all c (List.mem_of_mem_take member)) (fun c member => all c (List.mem_of_mem_drop member))
    rw [List.take_append_drop, List.length_drop, ← padded_eq, ofDigitChars_padLeft, padded_eq,
      show padded.length - (padded.length - places) = places by omega] at literal
    refine ⟨_, _, literal, ?_⟩
    rw [value, show -(places : ℤ) = d.exponent by omega]

/-- With an exponent a decimal is a literal of its digits, with the point after the first, and the power of ten of that. -/
theorem exponentText_eq (layout : Layout) (d : Decimal) :
    ∃ cs, exponentText layout d =
        cs ++ 'e' :: exponentSign (decide (d.leading < 0)) :: padLeft layout.exponentDigits '0' (digitText d.leading.natAbs) ∧
      Literal cs d.digits ((digitText d.digits).length - 1) := by
  have all := digits_digitText d.digits
  have sign : (if d.leading < 0 then '-' else '+') = exponentSign (decide (d.leading < 0)) := by
    by_cases negative : d.leading < 0 <;> simp [exponentSign, negative]
  have number : Nat.ofDigitChars 10 (digitText d.digits) 0 = d.digits := Nat.ofDigitChars_ten_toDigits
  obtain ⟨first, rest, text⟩ := List.exists_cons_of_ne_nil (Nat.toDigits_ne_nil (n := d.digits) (b := 10))
  change digitText d.digits = _ at text
  rw [text] at all number
  rw [exponentText, sign, text]
  rw [← number]
  cases rest with
  | nil => exact ⟨[first], rfl, .whole (by simp) all⟩
  | cons second rest =>
    rw [Digits, List.forall_mem_cons] at all
    exact ⟨first :: '.' :: second :: rest, rfl, @Literal.pointed [first] (second :: rest) (by simp)
      (by simpa [Digits] using all.1) all.2⟩

/-- The text of a decimal is the numeral of an equal number. -/
theorem scan_magnitudeText (layout : Layout) {d : Decimal} (near : d.leading.natAbs < 10000) (negative : Bool) :
    ∃ digits exponent, scan (signText negative ++ magnitudeText layout d) = some (.decimal negative digits exponent, []) ∧
      (digits : ℚ) * 10 ^ exponent = d.value := by
  rw [magnitudeText]
  split_ifs with zero plain
  · have literal : Literal ['0'] 0 0 := @Literal.whole ['0'] (by simp) (List.forall_mem_singleton.mpr rfl)
    exact ⟨0, _, scan_literal literal negative, by rw [value, zero]; simp⟩
  · obtain ⟨digits, places, literal, same⟩ := literal_plainText d
    exact ⟨digits, _, scan_literal literal negative, same⟩
  · obtain ⟨cs, text, literal⟩ := exponentText_eq layout d
    have all : Digits (padLeft layout.exponentDigits '0' (digitText d.leading.natAbs)) := fun c =>
      isDigit_of_mem_padLeft (digits_digitText _)
    have number := ofDigitChars_padLeft layout.exponentDigits d.leading.natAbs
    have marks : ∀ c ∈ exponentSign (decide (d.leading < 0)) :: padLeft layout.exponentDigits '0' (digitText d.leading.natAbs),
        Mark c := by
      rw [List.forall_mem_cons]
      refine ⟨?_, fun c member => .inl (all c member)⟩
      cases decide (d.leading < 0) <;> exact .inr (by decide)
    have scanned := scanExponent_signed (by simp [padLeft, digitText, Nat.toDigits_ne_nil]) all (number.trans_lt near)
      (decide (d.leading < 0))
    refine ⟨_, _, by rw [text]; exact scan_scientific literal negative marks scanned, ?_⟩
    have power : (if decide (d.leading < 0) = true then -(d.leading.natAbs : ℤ) else d.leading.natAbs) = d.leading := by
      simp only [decide_eq_true_iff]
      split_ifs <;> omega
    have positive : 0 < (digitText d.digits).length := Nat.length_toDigits_pos
    rw [number, power, value, leading]
    congr 2
    omega

/-! ## The text of a double -/

theorem read_magnitudeText (layout : Layout) {d : Decimal} (near : d.leading.natAbs < 10000) (negative : Bool) :
    ∃ (digits : ℕ) (exponent : ℤ), (digits : ℚ) * 10 ^ exponent = d.value ∧
      ((decimalValue digits exponent).isInf = false →
        Numeral.read (signText negative ++ magnitudeText layout d) = .ok (withSign negative (decimalValue digits exponent))) := by
  obtain ⟨digits, exponent, scanned, same⟩ := scan_magnitudeText layout near negative
  refine ⟨digits, exponent, same, fun bounded => ?_⟩
  rw [Numeral.read, scanned]
  change (if (decimalValue digits exponent).isInf then _ else _) = _
  rw [bounded]
  rfl

/-- Zero with the sign of a zero is that zero. -/
theorem withSign_zero {x : Float} {s : Sign} (seen : view x = .zero s) : withSign (isNegative s) 0 = x := by
  apply eq_of_view
  rw [seen]
  cases s <;> rfl

/-- The double of a magnitude with the sign of another is the other if the magnitudes are equal. -/
theorem withSign_encode {x : Float} {s : Sign} {m : ℕ} {e : ℤ} {positive : 0 < m} (canonical : Canonical m e)
    (seen : view x = .finite s m e positive) : withSign (isNegative s) (Float.ofBits (encode m e)) = x := by
  apply eq_of_view
  rw [seen]
  cases s with
  | negative =>
    change view (-_) = _
    rw [view_neg, view_encode canonical positive]
    exact encoded_of_canonical canonical positive
  | positive => exact view_encode canonical positive

/-- The text of a finite double is read back as the double. -/
theorem read_general {x : Float} (finite : x.isFinite = true) : Numeral.read (general x).toList = .ok x := by
  obtain ⟨number, bounded⟩ := isFinite_iff.mp finite
  rw [general_of_finite number bounded, String.toList_ofList]
  change Numeral.read (signText (signBit x) ++ _) = _
  cases reading x with
  | notANumber seen =>
    rw [isNaN_view, seen] at number
    cases number
  | infinity s seen =>
    rw [isInf_view, seen] at bounded
    cases bounded
  | zero s seen parted sign =>
    have chosen : shortestOf (parts x) = zero := by rw [parted]; rfl
    obtain ⟨digits, exponent, same, read⟩ := @read_magnitudeText .general zero (by decide) (signBit x)
    obtain rfl : digits = 0 := by
      have : (10 : ℚ) ^ exponent ≠ 0 := by positivity
      simpa [value, zero, this] using same
    have origin : decimalValue 0 exponent = 0 := by
      rw [decimalValue]
      exact if_pos rfl
    rw [origin] at read
    rw [chosen, read rfl, sign, withSign_zero seen]
  | finite s m e positive seen canonical parted sign =>
    have chosen : shortestOf (parts x) = shortest ⟨m, e⟩ := by
      rw [parted]
      exact if_neg positive.ne'
    have rounds := rounds_shortest canonical positive
    obtain ⟨low, high⟩ := Numeral.leading_bounds canonical positive rounds
    have near : (shortest ⟨m, e⟩).leading.natAbs < 10000 := by
      rw [leading, digitText]
      omega
    obtain ⟨digits, exponent, same, read⟩ := read_magnitudeText .general near (signBit x)
    have nearest : decimalValue digits exponent = Float.ofBits (encode m e) :=
      Numeral.decimalValue_eq canonical positive (same ▸ rounds)
    have small : (Float.ofBits (encode m e)).isInf = false := by
      rw [isInf_view, view_encode canonical positive]
      rfl
    rw [nearest] at read
    rw [chosen, read small, sign, withSign_encode canonical seen]

end Decimal

end Entangle
