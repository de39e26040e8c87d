import Mathlib
import Entangle.Gate.Param

/-!
# The characters of written numbers

A finite number is written with digits, a point, the mark of an exponent and signs. An angle may also be a multiple of π,
and its text has the letters `pi`, a star and a slash besides.
-/

namespace Entangle

/-! ## Texts on one line -/

namespace Text

/-- A text without a line feed. -/
def Unbroken (s : String) : Prop := '\n' ∉ s.toList

instance : DecidablePred Unbroken := fun s => inferInstanceAs (Decidable ('\n' ∉ s.toList))

@[simp]
theorem unbroken_append {s t : String} : Unbroken (s ++ t) ↔ Unbroken s ∧ Unbroken t := by
  rw [Unbroken, String.toList_append, List.mem_append, not_or, Unbroken, Unbroken]

/-- What holds of the characters of all parts and of those between them holds of all that are joined. -/
theorem forall_mem_intercalate {holds : Char → Prop} {separator : String} {parts : List String}
    (between : ∀ c ∈ separator.toList, holds c) (each : ∀ part ∈ parts, ∀ c ∈ part.toList, holds c) :
    ∀ c ∈ (separator.intercalate parts).toList, holds c := by
  induction parts with
  | nil => simp
  | cons first rest ih =>
    rw [List.forall_mem_cons] at each
    cases rest with
    | nil => simpa only [String.intercalate_singleton] using each.1
    | cons second rest =>
      rw [String.intercalate_cons_cons, String.toList_append, String.toList_append]
      exact List.forall_mem_append.mpr ⟨List.forall_mem_append.mpr ⟨each.1, between⟩, ih each.2⟩

theorem unbroken_iff {s : String} : Unbroken s ↔ ∀ c ∈ s.toList, c ≠ '\n' :=
  ⟨fun plain _ member same => plain (same ▸ member), fun each member => each _ member rfl⟩

theorem unbroken_intercalate {separator : String} {parts : List String} (plain : Unbroken separator)
    (each : ∀ part ∈ parts, Unbroken part) : Unbroken (separator.intercalate parts) :=
  unbroken_iff.mpr (forall_mem_intercalate (unbroken_iff.mp plain) fun part member => unbroken_iff.mp (each part member))

theorem unbroken_repr (n : ℕ) : Unbroken n.repr := by
  rw [Unbroken, Nat.repr_eq_ofList_toDigits, String.toList_ofList]
  intro member
  exact absurd (Nat.isDigit_of_mem_toDigits (by omega) (by omega) member) (by decide)

theorem unbroken_toString (n : ℤ) : Unbroken (toString n) := by
  cases n with
  | ofNat n => exact unbroken_repr n
  | negSucc n => exact unbroken_append.mpr ⟨by decide, unbroken_repr (n + 1)⟩

end Text

/-! ## The characters of a number -/

namespace Decimal

/-- A digit, the point, the mark of an exponent, or a sign. -/
def Mark (c : Char) : Prop := c.isDigit = true ∨ c ∈ ['.', 'e', '+', '-']

instance : DecidablePred Mark := fun c => inferInstanceAs (Decidable (c.isDigit = true ∨ c ∈ ['.', 'e', '+', '-']))

theorem isDigit_of_mem_digitText {n : ℕ} {c : Char} (member : c ∈ digitText n) : c.isDigit = true :=
  Nat.isDigit_of_mem_toDigits (by omega) (by omega) member

theorem isDigit_of_mem_padLeft {width : ℕ} {text : List Char} (digits : ∀ c ∈ text, c.isDigit = true) {c : Char}
    (member : c ∈ padLeft width '0' text) : c.isDigit = true := by
  rw [padLeft, List.mem_append, List.mem_replicate] at member
  rcases member with ⟨-, rfl⟩ | member
  · rfl
  · exact digits c member

theorem mark_of_mem_plainText {d : Decimal} {c : Char} (member : c ∈ plainText d) : Mark c := by
  unfold plainText at member
  split at member
  · rw [List.mem_append, List.mem_replicate] at member
    rcases member with member | ⟨-, rfl⟩
    · exact .inl (isDigit_of_mem_digitText member)
    · exact .inl rfl
  · have padded := @isDigit_of_mem_padLeft ((-d.exponent).toNat + 1) (digitText d.digits)
      fun c => isDigit_of_mem_digitText
    rw [List.mem_append, List.mem_cons] at member
    rcases member with member | rfl | member
    · exact .inl (padded (List.mem_of_mem_take member))
    · exact .inr (by decide)
    · exact .inl (padded (List.mem_of_mem_drop member))

theorem mark_of_mem_exponentText {layout : Layout} {d : Decimal} {c : Char} (member : c ∈ exponentText layout d) :
    Mark c := by
  unfold exponentText at member
  rw [List.mem_append, List.mem_cons, List.mem_cons] at member
  rcases member with member | rfl | rfl | member
  · have digits := @isDigit_of_mem_digitText d.digits
    split at member
    · cases member
    next first text =>
      rw [text] at digits
      exact .inl (digits member)
    next first rest _ text =>
      rw [text] at digits
      rw [List.mem_cons, List.mem_cons] at member
      rcases member with rfl | rfl | member
      · exact .inl (digits (by simp))
      · exact .inr (by decide)
      · exact .inl (digits (by simp [member]))
  · exact .inr (by decide)
  · split <;> exact .inr (by decide)
  · exact .inl (isDigit_of_mem_padLeft (fun c => isDigit_of_mem_digitText) member)

theorem mark_of_mem_magnitudeText {layout : Layout} {d : Decimal} {c : Char} (member : c ∈ magnitudeText layout d) :
    Mark c := by
  unfold magnitudeText at member
  split at member
  · rw [List.mem_singleton.mp member]
    exact .inl rfl
  split at member
  · exact mark_of_mem_plainText member
  · exact mark_of_mem_exponentText member

/-- A finite number is written as its sign and its magnitude. -/
theorem general_of_finite {x : Float} (number : x.isNaN = false) (bounded : x.isInf = false) :
    general x = String.ofList ((if Binary64.signBit x then ['-'] else []) ++
      magnitudeText .general (shortestOf (Binary64.parts x))) := by
  simp only [general, textWith, number, bounded, Bool.false_eq_true, if_false]

/-- What is not a number, or too large to be one, has a word for its text; all others are written with marks alone. -/
theorem general_chars (x : Float) :
    general x ∈ ["NaN", "-Inf", "+Inf"] ∨ ∀ c ∈ (general x).toList, Mark c := by
  cases number : x.isNaN with
  | true =>
    left
    simp only [general, textWith, number, if_true, Bool.false_eq_true, if_false, List.mem_cons, true_or]
  | false =>
    cases bounded : x.isInf with
    | true =>
      left
      simp only [general, textWith, number, bounded, Bool.false_eq_true, if_false, if_true]
      split <;> simp
    | false =>
      right
      intro c member
      rw [general_of_finite number bounded, String.toList_ofList, List.mem_append] at member
      rcases member with member | member
      · have sign : c = '-' := by
          revert member
          cases Binary64.signBit x <;> simp
        exact .inr (by simp [sign])
      · exact mark_of_mem_magnitudeText member

end Decimal

/-! ## The characters of an angle -/

namespace Gate

theorem mem_of_piText? {x : Float} {text : String} (found : piText? x = some text) :
    ∃ form ∈ piForms, text = form.2 ∨ text = "-" ++ form.2 := by
  obtain ⟨form, member, chosen⟩ := List.exists_of_findSome?_eq_some found
  refine ⟨form, member, ?_⟩
  dsimp only at chosen
  split at chosen
  · exact .inl (Option.some.inj chosen).symm
  split at chosen
  · exact .inr (Option.some.inj chosen).symm
  · cases chosen

theorem unbroken_piText? {x : Float} {text : String} (found : piText? x = some text) : Text.Unbroken text := by
  obtain ⟨form, member, written⟩ := mem_of_piText? found
  have forms : ∀ form ∈ piForms, Text.Unbroken form.2 := by decide +kernel
  rcases written with rfl | rfl
  · exact forms form member
  · exact Text.unbroken_append.mpr ⟨by decide, forms form member⟩

/-- An angle is written on one line. -/
theorem unbroken_formatParam (x : Float) : Text.Unbroken (formatParam x) := by
  unfold formatParam
  cases found : piText? x with
  | some text => exact unbroken_piText? found
  | none =>
    rcases Decimal.general_chars x with word | marks
    · have words : ∀ text ∈ ["NaN", "-Inf", "+Inf"], Text.Unbroken text := by decide
      exact words _ word
    · intro member
      exact absurd (marks '\n' member) (by decide)

end Gate

end Entangle
