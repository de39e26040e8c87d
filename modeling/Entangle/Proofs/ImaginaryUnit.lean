import Mathlib
import Entangle.Matrix.Written

/-!
# The letter of the imaginary unit

A reader of numerals takes characters off the front of a text, and neither letter of the imaginary unit is among them
but for the `i` in the words for infinity. A finite complex number with an `i` in its text therefore has it once, at the
end or before the parenthesis that ends the text. At the end it may be a `j` as well. Before a parenthesis it may not:
only the last character of the text is looked at.
-/

namespace Entangle

/-! ## Blanks at the ends -/

namespace Text

/-- What trimming takes away is blank. -/
theorem trimChars_spec (cs : List Char) : ∃ before after, cs = before ++ (trimChars cs ++ after) ∧
    (∀ c ∈ before, isBlank c = true) ∧ ∀ c ∈ after, isBlank c = true := by
  refine ⟨cs.takeWhile isBlank, ((cs.dropWhile isBlank).reverse.takeWhile isBlank).reverse, ?_, ?_, ?_⟩
  · rw [trimChars, ← List.reverse_append, List.takeWhile_append_dropWhile, List.reverse_reverse,
      List.takeWhile_append_dropWhile]
  · intro c member
    exact List.mem_takeWhile_imp member
  · intro c member
    exact List.mem_takeWhile_imp (List.mem_reverse.mp member)

/-- Trimming sees only which characters are blank. -/
theorem trimChars_map {f : Char → Char} (keeps : ∀ c, isBlank (f c) = isBlank c) (cs : List Char) :
    trimChars (cs.map f) = (trimChars cs).map f := by
  have same : isBlank ∘ f = isBlank := funext keeps
  simp only [trimChars, List.dropWhile_map, same, ← List.map_reverse]

theorem count_trimChars {c : Char} (inked : isBlank c = false) (cs : List Char) :
    (trimChars cs).count c = cs.count c := by
  obtain ⟨before, after, split, blank, blank'⟩ := trimChars_spec cs
  have absent : c ∉ before ∧ c ∉ after := by
    constructor <;> intro member
    · rw [blank c member] at inked
      cases inked
    · rw [blank' c member] at inked
      cases inked
  conv_rhs => rw [split]
  rw [List.count_append, List.count_append, List.count_eq_zero.mpr absent.1, List.count_eq_zero.mpr absent.2]
  omega

end Text

namespace Numeral

/-! ## What a numeral is made of -/

/-- A text begins with allowed characters, and the rest comes after them. -/
def Skips (allowed : Char → Prop) (cs rest : List Char) : Prop := ∃ used, cs = used ++ rest ∧ ∀ c ∈ used, allowed c

/-- Neither of the two letters of the imaginary unit. -/
def Plain (c : Char) : Prop := c ≠ 'i' ∧ c ≠ 'j'

instance : DecidablePred Plain := fun c => inferInstanceAs (Decidable (c ≠ 'i' ∧ c ≠ 'j'))

section Skips

variable {allowed wider : Char → Prop} {c : Char} {cs middle rest : List Char}

theorem Skips.refl (cs : List Char) : Skips allowed cs cs := ⟨[], rfl, by simp⟩

theorem Skips.cons (first : allowed c) (skips : Skips allowed cs rest) : Skips allowed (c :: cs) rest := by
  obtain ⟨used, rfl, all⟩ := skips
  exact ⟨c :: used, rfl, by simpa using ⟨first, all⟩⟩

theorem Skips.trans (first : Skips allowed cs middle) (second : Skips allowed middle rest) : Skips allowed cs rest := by
  obtain ⟨used, rfl, all⟩ := first
  obtain ⟨used', rfl, all'⟩ := second
  exact ⟨used ++ used', by simp, fun c member => (List.mem_append.mp member).elim (all c) (all' c)⟩

theorem Skips.mono (skips : Skips allowed cs rest) (weaker : ∀ c, allowed c → wider c) : Skips wider cs rest := by
  obtain ⟨used, split, all⟩ := skips
  exact ⟨used, split, fun c member => weaker c (all c member)⟩

end Skips

theorem plain_of_digit {base : ℕ} {c : Char} {digit : ℕ} (found : digit? base c = some digit) : Plain c := by
  constructor <;> rintro rfl
  · have none : digit? base 'i' = none := by simp [digit?]
    rw [none] at found
    cases found
  · have none : digit? base 'j' = none := by simp [digit?]
    rw [none] at found
    cases found

/-- A character whose small form is another letter. -/
theorem plain_of_toLower {c letter : Char} (small : c.toLower = letter) (plain : Plain letter) : Plain c := by
  constructor <;> rintro rfl
  · exact plain.1 small.symm
  · exact plain.2 small.symm

/-- The characters of a mantissa to some base, and those of an exponent, are allowed. -/
structure Admits (allowed : Char → Prop) (base : ℕ) : Prop where
  digit {c : Char} {digit : ℕ} : digit? base c = some digit → allowed c
  decimal {c : Char} : c.isDigit = true → allowed c
  underscore : allowed '_'
  point : allowed '.'
  plus : allowed '+'
  minus : allowed '-'

section Admits

variable {allowed : Char → Prop} {base : ℕ} (admits : Admits allowed base)
include admits

theorem skips_scanMantissa (m : Mantissa) (cs : List Char) : Skips allowed cs (scanMantissa base m cs).2 := by
  induction cs generalizing m with
  | nil => exact .refl _
  | cons c rest ih =>
    rw [scanMantissa]
    split
    next underscore =>
      obtain rfl := beq_iff_eq.mp underscore
      exact (ih m).cons admits.underscore
    split
    next point =>
      obtain rfl := beq_iff_eq.mp point
      split
      · exact .refl _
      · exact (ih _).cons admits.point
    split
    next found => exact (ih _).cons (admits.digit found)
    next => exact .refl _

theorem skips_scanExponentDigits (e : ℕ) (cs : List Char) : Skips allowed cs (scanExponentDigits e cs).2 := by
  induction cs generalizing e with
  | nil => exact .refl _
  | cons c rest ih =>
    rw [scanExponentDigits]
    split
    next underscore =>
      obtain rfl := beq_iff_eq.mp underscore
      exact (ih e).cons admits.underscore
    split
    next isDigit => exact (ih _).cons (admits.decimal isDigit)
    next => exact .refl _

theorem skips_dropSign (cs : List Char) : Skips allowed cs (dropSign cs).2 := by
  unfold dropSign
  split
  · exact (Skips.refl _).cons admits.plus
  · exact (Skips.refl _).cons admits.minus
  · exact .refl _

theorem skips_scanExponent {cs rest : List Char} {e : ℤ} (found : scanExponent cs = some (e, rest)) :
    Skips allowed cs rest := by
  have skipped := skips_dropSign admits cs
  generalize same : dropSign cs = signed at skipped
  unfold dropSign at same
  unfold scanExponent at found
  dsimp only at found
  rw [same] at found
  split at found
  · cases found
  split at found
  · obtain ⟨-, rfl⟩ := Prod.mk.inj (Option.some.inj found)
    exact skipped.trans (skips_scanExponentDigits admits 0 _)
  · cases found

end Admits

theorem plain_admits (base : ℕ) : Admits Plain base where
  digit := plain_of_digit
  decimal isDigit := @plain_of_digit 10 _ _ (if_pos isDigit)
  underscore := by decide
  point := by decide
  plus := by decide
  minus := by decide

theorem skips_dropHexMark {cs rest : List Char} (found : dropHexMark cs = some rest) : Skips Plain cs rest := by
  unfold dropHexMark at found
  split at found
  · split at found
    · rename_i hex
      obtain rfl := Option.some.inj found
      exact ((Skips.refl _).cons (plain_of_toLower (beq_iff_eq.mp hex) (by decide))).cons (by decide)
    · cases found
  · cases found

/-- What a numeral in decimal digits is made of. -/
theorem skips_decimal {allowed : Char → Prop} (admits : Admits allowed 10) (mark : ∀ c : Char, c.toLower = 'e' → allowed c)
    {cs rest : List Char} {n : Numeral} (decimal : dropHexMark (dropSign cs).2 = none)
    (found : scanDigits cs = some (n, rest)) : Skips allowed cs rest := by
  have digits := (skips_dropSign admits cs).trans (skips_scanMantissa admits .empty (dropSign cs).2)
  unfold scanDigits at found
  dsimp only at found
  rw [decimal] at found
  dsimp only at found
  split at found
  · cases found
  split at found
  next c afterMark mantissaRest =>
    split at found
    next small =>
      obtain ⟨⟨e, rest'⟩, exponent, same⟩ := Option.map_eq_some_iff.mp found
      obtain ⟨-, rfl⟩ := Prod.mk.inj same
      rw [mantissaRest] at digits
      exact digits.trans ((skips_scanExponent admits exponent).cons (mark c (beq_iff_eq.mp small)))
    next =>
      obtain ⟨-, rfl⟩ := Prod.mk.inj (Option.some.inj found)
      exact digits
  next mantissaRest =>
    rw [mantissaRest] at digits
    obtain ⟨-, rfl⟩ := Prod.mk.inj (Option.some.inj found)
    exact digits

theorem skips_scanDigits {cs rest : List Char} {n : Numeral} (found : scanDigits cs = some (n, rest)) :
    Skips Plain cs rest := by
  cases marked : dropHexMark (dropSign cs).2 with
  | none => exact skips_decimal (plain_admits 10) (fun c small => plain_of_toLower small (by decide)) marked found
  | some hexBody =>
    have body := (skips_dropSign (plain_admits 10) cs).trans (skips_dropHexMark marked)
    have digits := body.trans (skips_scanMantissa (plain_admits 16) .empty hexBody)
    unfold scanDigits at found
    dsimp only at found
    rw [marked] at found
    dsimp only at found
    split at found
    next c afterMark mantissaRest =>
      rw [mantissaRest] at digits
      split at found
      next mark =>
        obtain ⟨⟨e, rest'⟩, exponent, same⟩ := Option.map_eq_some_iff.mp found
        obtain ⟨-, rfl⟩ := Prod.mk.inj same
        rw [Bool.and_eq_true] at mark
        have plain := plain_of_toLower (beq_iff_eq.mp mark.2) (by decide)
        exact digits.trans ((skips_scanExponent (plain_admits 10) exponent).cons plain)
      next => cases found
    next => cases found

/-- A word is taken off by its letters, in either case. -/
theorem skips_dropWord {word cs rest : List Char} (found : dropWord word cs = some rest) :
    Skips (fun c => c.toLower ∈ word) cs rest := by
  unfold dropWord at found
  split at found
  · rename_i same
    obtain rfl := Option.some.inj found
    refine ⟨cs.take word.length, (List.take_append_drop _ _).symm, fun c member => ?_⟩
    rw [← beq_iff_eq.mp same]
    exact List.mem_map_of_mem member
  · cases found

/-- The words for infinity hold an `i`. -/
theorem skips_scanInfinity {negative : Bool} {cs rest : List Char} {n : Numeral}
    (found : scanInfinity negative cs = some (n, rest)) : n = infinity negative ∧ Skips (· ≠ 'j') cs rest := by
  have letters {word : List Char} (without : 'j' ∉ word) (dropped : dropWord word cs = some rest) :
      Skips (· ≠ 'j') cs rest := by
    refine (skips_dropWord dropped).mono ?_
    rintro c member rfl
    exact without member
  unfold scanInfinity at found
  split at found
  · rename_i dropped
    obtain ⟨rfl, rfl⟩ := Prod.mk.inj (Option.some.inj found)
    exact ⟨rfl, letters (by decide) dropped⟩
  · obtain ⟨rest', dropped, same⟩ := Option.map_eq_some_iff.mp found
    obtain ⟨rfl, rfl⟩ := Prod.mk.inj same
    exact ⟨rfl, letters (by decide) dropped⟩

/-- A numeral takes neither letter of the imaginary unit off a text, unless it is infinite. -/
theorem skips_scan {cs rest : List Char} {n : Numeral} (found : scan cs = some (n, rest)) :
    Skips (· ≠ 'j') cs rest ∧ ((∃ negative, n = infinity negative) ∨ Skips Plain cs rest) := by
  have plain (skips : Skips Plain cs rest) :
      Skips (· ≠ 'j') cs rest ∧ ((∃ negative, n = infinity negative) ∨ Skips Plain cs rest) :=
    ⟨skips.mono fun c => And.right, .inr skips⟩
  unfold scan at found
  split at found
  · rename_i word
    obtain rfl := Option.some.inj found
    unfold scanWord at word
    split at word
    · obtain ⟨same, skips⟩ := skips_scanInfinity word
      exact ⟨skips.cons (by decide), .inl ⟨_, same⟩⟩
    · obtain ⟨same, skips⟩ := skips_scanInfinity word
      exact ⟨skips.cons (by decide), .inl ⟨_, same⟩⟩
    · split at word
      · rename_i infinite
        obtain rfl := Option.some.inj word
        obtain ⟨same, skips⟩ := skips_scanInfinity infinite
        exact ⟨skips, .inl ⟨_, same⟩⟩
      · obtain ⟨rest', dropped, same⟩ := Option.map_eq_some_iff.mp word
        obtain ⟨-, rfl⟩ := Prod.mk.inj same
        refine plain ((skips_dropWord dropped).mono ?_)
        intro c member
        exact ⟨by rintro rfl; revert member; decide, by rintro rfl; revert member; decide⟩
  · obtain ⟨digits, -⟩ := Option.filter_eq_some_iff.mp found
    exact plain (skips_scanDigits digits)

/-! ## Complex numerals -/

theorem skips_imaginaryText {cs rest : List Char} (found : imaginaryText cs = some rest) : Skips Plain cs rest := by
  unfold imaginaryText at found
  split at found
  · obtain rfl := Option.some.inj found
    exact .refl _
  · obtain rfl := Option.some.inj found
    exact .refl _
  · obtain rfl := Option.some.inj found
    exact (Skips.refl _).cons (by decide)
  · obtain rfl := Option.some.inj found
    exact .refl _
  · cases found

/-- A text that ends after allowed characters holds no other. -/
theorem Skips.all {allowed : Char → Prop} {cs : List Char} (skips : Skips allowed cs []) : ∀ c ∈ cs, allowed c := by
  obtain ⟨used, rfl, all⟩ := skips
  rwa [List.append_nil]

/-- The letters of a complex numeral: no `j`, and an `i` at the end only, unless a part is infinite. -/
structure Lettered (cs : List Char) (infinite : Prop) : Prop where
  no_j : 'j' ∉ cs
  no_i : infinite ∨ 'i' ∉ cs ∨ ∃ body, cs = body ++ ['i'] ∧ 'i' ∉ body

section Lettered

variable {cs : List Char} {infinite : Prop}

theorem Lettered.of_real (letters : Skips (· ≠ 'j') cs []) (plain : infinite ∨ Skips Plain cs []) :
    Lettered cs infinite :=
  ⟨fun member => letters.all _ member rfl, plain.imp_right fun skips => .inl fun member => (skips.all _ member).1 rfl⟩

theorem Lettered.of_imaginary (letters : Skips (· ≠ 'j') cs ['i']) (plain : infinite ∨ Skips Plain cs ['i']) :
    Lettered cs infinite := by
  constructor
  · obtain ⟨used, rfl, all⟩ := letters
    intro member
    rcases List.mem_append.mp member with early | last
    · exact all _ early rfl
    · exact absurd last (by decide)
  · refine plain.imp_right fun skips => .inr ?_
    obtain ⟨used, rfl, all⟩ := skips
    exact ⟨used, rfl, fun member => (all _ member).1 rfl⟩

end Lettered

theorem scanComplex_letters {cs : List Char} {re im : Numeral} (found : scanComplex cs = some (re, im)) :
    Lettered (dropParentheses cs) (∃ negative, re = infinity negative ∨ im = infinity negative) := by
  unfold scanComplex at found
  dsimp only at found
  generalize dropParentheses cs = inner at found ⊢
  split at found
  next => cases found
  next first scanned =>
    obtain ⟨rfl, -⟩ := Prod.mk.inj (Option.some.inj found)
    obtain ⟨letters, plain⟩ := skips_scan scanned
    exact .of_real letters (plain.imp_left fun ⟨negative, same⟩ => ⟨negative, .inl same⟩)
  next first scanned =>
    obtain ⟨-, rfl⟩ := Prod.mk.inj (Option.some.inj found)
    obtain ⟨letters, plain⟩ := skips_scan scanned
    exact .of_imaginary letters (plain.imp_left fun ⟨negative, same⟩ => ⟨negative, .inr same⟩)
  next first rest notEmpty notUnit scanned =>
    split at found
    next second scanned' =>
      obtain ⟨rfl, rfl⟩ := Prod.mk.inj (Option.some.inj found)
      obtain ⟨tail, sign, scanned'⟩ := Option.bind_eq_some_iff.mp scanned'
      have signed := skips_imaginaryText sign
      obtain ⟨letters, plain⟩ := skips_scan scanned
      obtain ⟨letters', plain'⟩ := skips_scan scanned'
      refine .of_imaginary (letters.trans ((signed.mono fun c => And.right).trans letters')) ?_
      rcases plain with ⟨negative, same⟩ | skips
      · exact .inl ⟨negative, .inl same⟩
      rcases plain' with ⟨negative, same⟩ | skips'
      · exact .inl ⟨negative, .inr same⟩
      · exact .inr (skips.trans (signed.trans skips'))
    next => cases found

theorem dropParentheses_cases (cs : List Char) :
    dropParentheses cs = cs ∨ cs = '(' :: (dropParentheses cs ++ [')']) := by
  unfold dropParentheses
  split
  next rest =>
    split
    next closed =>
      right
      rw [List.dropLast_append_getLast? _ (beq_iff_eq.mp closed)]
    next => exact .inl rfl
  next => exact .inl rfl

/-- An infinite part is not finite. -/
theorem infinity_not_finite (negative : Bool) : Scalar.isFinite (infinity negative).value = false := by
  cases negative <;> decide

/-- The text of a finite complex number holds an `i` once, at its end or before a last parenthesis. -/
theorem readComplex_letters {cs : List Char} {z : Cx Float} (found : readComplex cs = .ok z)
    (finite : z.isFinite = true) :
    'j' ∉ cs ∧ ('i' ∈ cs → ∃ body, 'i' ∉ body ∧ (cs = body ++ ['i'] ∨ cs = '(' :: (body ++ ['i', ')']))) := by
  unfold readComplex at found
  split at found
  next => cases found
  next re im scanned =>
    split at found
    next => cases found
    next =>
      obtain rfl := Except.ok.inj found
      obtain ⟨no_j, no_i⟩ := scanComplex_letters scanned
      rw [Cx.isFinite, Bool.and_eq_true] at finite
      have ends : 'i' ∉ dropParentheses cs ∨ ∃ body, dropParentheses cs = body ++ ['i'] ∧ 'i' ∉ body := by
        rcases no_i with ⟨negative, rfl | rfl⟩ | ends
        · rw [infinity_not_finite] at finite
          cases finite.1
        · rw [infinity_not_finite] at finite
          cases finite.2
        · exact ends
      rcases dropParentheses_cases cs with bare | closed
      · rw [bare] at no_j ends
        refine ⟨no_j, fun member => ?_⟩
        rcases ends with absent | ⟨body, last, absent⟩
        · exact absurd member absent
        · exact ⟨body, absent, .inl last⟩
      · constructor
        · rw [closed]
          simpa using no_j
        · intro member
          rcases ends with absent | ⟨body, last, absent⟩
          · rw [closed] at member
            simp [absent] at member
          · rw [last] at closed
            exact ⟨body, absent, .inr (by simpa using closed)⟩

theorem readComplex_of_j {cs : List Char} (member : 'j' ∈ dropParentheses cs) : readComplex cs = .error .malformed := by
  unfold readComplex
  split
  next => rfl
  next re im scanned => exact absurd member (scanComplex_letters scanned).no_j

end Numeral

/-! ## Engineering notation -/

namespace Cx

/-- The text that is read for a trimmed one: a last `j` counts as an `i`. -/
def numeralText (trimmed : List Char) : List Char :=
  if trimmed.getLast? == some 'j' then trimmed.dropLast ++ ['i'] else trimmed

theorem numeralText_append_j (body : List Char) : numeralText (body ++ ['j']) = body ++ ['i'] := by
  simp [numeralText]

theorem numeralText_of_last {cs : List Char} (other : cs.getLast? ≠ some 'j') : numeralText cs = cs := by
  simp [numeralText, other]

theorem parse_eq (s : String) : parse s = Outcome.step "ParseComplex" (
    match Numeral.readComplex (numeralText (Text.trimChars s.toList)) with
    | .error refusal =>
        .error (.numeral .complex (String.ofList (numeralText (Text.trimChars s.toList))) refusal)
    | .ok z => if z.isFinite then .ok z else .error (.plain .nonFiniteEntry)) := rfl

theorem parse_eq_ok {s : String} {z : Cx Float} : parse s = .ok z ↔
    Numeral.readComplex (numeralText (Text.trimChars s.toList)) = .ok z ∧ z.isFinite = true := by
  rw [parse_eq, Outcome.step_eq_ok]
  cases Numeral.readComplex (numeralText (Text.trimChars s.toList)) with
  | error refusal => simp
  | ok w =>
    dsimp only
    split
    next finite =>
      rw [Except.ok.injEq]
      constructor
      · rintro rfl
        exact ⟨rfl, finite⟩
      · rintro ⟨same, -⟩
        exact Except.ok.inj same
    next infinite =>
      constructor
      · intro same
        cases same
      · rintro ⟨same, finite⟩
        obtain rfl := Except.ok.inj same
        exact absurd finite infinite

/-- Engineering notation: the imaginary unit is written `j`. -/
def engineering (s : String) : String := String.ofList (s.toList.map fun c => if c = 'i' then 'j' else c)

theorem trimChars_engineering (s : String) :
    Text.trimChars (engineering s).toList = (Text.trimChars s.toList).map fun c => if c = 'i' then 'j' else c := by
  rw [engineering, String.toList_ofList]
  refine Text.trimChars_map (fun c => ?_) _
  split
  next same => rw [same]; rfl
  next => rfl

theorem map_engineering {body : List Char} (absent : 'i' ∉ body) :
    body.map (fun c => if c = 'i' then 'j' else c) = body := by
  have kept : ∀ c ∈ body, (if c = 'i' then 'j' else c) = c := by
    intro c member
    refine if_neg ?_
    rintro rfl
    exact absent member
  rw [List.map_congr_left kept, List.map_id']

theorem getLast?_parenthesized (body : List Char) (unit : Char) :
    ('(' :: (body ++ [unit, ')'])).getLast? = some ')' := by
  have split : '(' :: (body ++ [unit, ')']) = ('(' :: body ++ [unit]) ++ [')'] := by simp
  rw [split, List.getLast?_concat]

/-- A number that is read from a text with an `i` has it once. Where it ends the text, engineering notation is read as
the same number; where parentheses stand around the number, it is refused. -/
theorem parse_engineering {s : String} {z : Cx Float} (found : parse s = .ok z) (imaginary : 'i' ∈ s.toList) :
    s.toList.count 'i' = 1 ∧
      ((∃ body, Text.trimChars s.toList = body ++ ['i'] ∧ parse (engineering s) = .ok z) ∨
        ∃ body, Text.trimChars s.toList = '(' :: (body ++ ['i', ')']) ∧
          parse (engineering s) = .error (.within (.step "ParseComplex")
            (.numeral .complex (String.ofList ('(' :: (body ++ ['j', ')']))) .malformed))) := by
  obtain ⟨read, finite⟩ := parse_eq_ok.mp found
  have count := Text.count_trimChars (c := 'i') (by decide) s.toList
  have trimmed := trimChars_engineering s
  have member : 'i' ∈ Text.trimChars s.toList := by
    rw [← List.count_pos_iff, count]
    exact List.count_pos_iff.mpr imaginary
  generalize Text.trimChars s.toList = t at *
  have letters := (Numeral.readComplex_letters read finite).2
  by_cases last : t.getLast? = some 'j'
  · -- the `i` that stands for this `j` is the only one
    have split := List.dropLast_append_getLast? _ last
    rw [← split, numeralText_append_j] at letters
    have early : 'i' ∈ t.dropLast := by
      rw [← split] at member
      simpa using member
    obtain ⟨body, absent, same | same⟩ := letters (by simp)
    · rw [List.append_cancel_right same] at early
      exact absurd early absent
    · have ends := congrArg List.getLast? same
      rw [getLast?_parenthesized, List.getLast?_concat] at ends
      cases ends
  · rw [numeralText_of_last last] at read letters
    obtain ⟨body, absent, rfl | rfl⟩ := letters member
    · have none : List.count 'i' body = 0 := List.count_eq_zero.mpr absent
      refine ⟨by rw [← count]; simp [none], .inl ⟨body, rfl, parse_eq_ok.mpr ⟨?_, finite⟩⟩⟩
      rw [trimmed, List.map_append, map_engineering absent]
      exact (congrArg Numeral.readComplex (numeralText_append_j body)).trans read
    · have none : List.count 'i' body = 0 := List.count_eq_zero.mpr absent
      refine ⟨by rw [← count]; simp [none], .inr ⟨body, rfl, ?_⟩⟩
      have turned : numeralText (Text.trimChars (engineering s).toList) = '(' :: (body ++ ['j', ')']) := by
        have spelled : Text.trimChars (engineering s).toList = '(' :: (body ++ ['j', ')']) := by
          rw [trimmed, List.map_cons, List.map_append, map_engineering absent]
          rfl
        rw [spelled]
        exact numeralText_of_last (by rw [getLast?_parenthesized]; decide)
      have inside : 'j' ∈ Numeral.dropParentheses ('(' :: (body ++ ['j', ')'])) := by
        simp [Numeral.dropParentheses]
      rw [parse_eq, turned, Numeral.readComplex_of_j inside]
      rfl

/-- With blanks around it and a real part before it. -/
theorem parse_engineering_last :
    parse " 0.5-0.25i\t" = .ok ⟨0.5, -0.25⟩ ∧ parse " 0.5-0.25j\t" = .ok ⟨0.5, -0.25⟩ := by
  have found : parse " 0.5-0.25i\t" = .ok ⟨0.5, -0.25⟩ := rfl
  have turned : engineering " 0.5-0.25i\t" = " 0.5-0.25j\t" := by decide
  obtain ⟨-, ⟨_, -, same⟩ | ⟨body, closed, -⟩⟩ := parse_engineering found (by decide)
  · exact ⟨found, turned ▸ same⟩
  · cases closed

/-- Parentheses around the number keep the last `j` from being looked at. -/
theorem parse_parenthesized_engineering :
    parse "(1+2i)" = .ok ⟨1, 2⟩ ∧ engineering "(1+2i)" = "(1+2j)" ∧
      parse "(1+2j)" = .error (.within (.step "ParseComplex") (.numeral .complex "(1+2j)" .malformed)) :=
  ⟨rfl, by decide, rfl⟩

end Cx

end Entangle
