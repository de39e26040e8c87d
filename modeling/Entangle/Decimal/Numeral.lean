import Entangle.Scalar.Nearest

/-!
# Numerals

Reading a double from text: an optional sign, then decimal digits with an optional point and exponent,
hexadecimal digits with a binary exponent, or one of the words for infinity and for no number. An
underscore may stand between two digits and after the mark of a hexadecimal numeral. `scan` takes the
longest numeral at the front of a text.
-/

namespace Entangle

inductive Numeral where
  | infinity (negative : Bool)
  | notANumber
  /-- `± digits · 10^exponent` -/
  | decimal (negative : Bool) (digits : Nat) (exponent : Int)
  /-- `± significand · 2^exponent` -/
  | binary (negative : Bool) (significand : Nat) (exponent : Int)
deriving Repr, DecidableEq

namespace Numeral

def withSign (negative : Bool) (x : Float) : Float := if negative then -x else x

/-- The nearest double to `digits · 10^exponent`. Numbers far outside the range of doubles are decided
by the place of their leading digit. -/
def decimalValue (digits : Nat) (exponent : Int) : Float :=
  let leading := exponent + ((Nat.toDigits 10 digits).length : Int)
  if digits = 0 then 0
  else if 400 < leading then 1 / 0
  else if leading < -400 then 0
  else Binary64.nearest (digits * Nat.pow 10 exponent.toNat) (Nat.pow 10 (-exponent).toNat)

def binaryValue (significand : Nat) (exponent : Int) : Float :=
  Binary64.nearest (significand * Nat.pow 2 exponent.toNat) (Nat.pow 2 (-exponent).toNat)

/-- The double nearest to the number; infinite when it is too large. -/
def value : Numeral → Float
  | infinity negative => withSign negative (1 / 0)
  | notANumber => 0 / 0
  | decimal negative digits exponent => withSign negative (decimalValue digits exponent)
  | binary negative significand exponent => withSign negative (binaryValue significand exponent)

/-- The number is finite and its nearest double is not. -/
def overflows : Numeral → Bool
  | infinity _ => false
  | notANumber => false
  | decimal _ digits exponent => (decimalValue digits exponent).isInf
  | binary _ significand exponent => (binaryValue significand exponent).isInf

def digit? (base : Nat) (c : Char) : Option Nat :=
  if c.isDigit then some (c.toNat - '0'.toNat)
  else if base = 16 ∧ 'a' ≤ c.toLower ∧ c.toLower ≤ 'f' then some (c.toLower.toNat - 'a'.toNat + 10)
  else none

/-- The digits of a mantissa read so far. -/
structure Mantissa where
  value : Nat
  places : Nat
  sawPoint : Bool
  sawDigit : Bool

def Mantissa.empty : Mantissa := ⟨0, 0, false, false⟩

def Mantissa.push (m : Mantissa) (base digit : Nat) : Mantissa :=
  ⟨m.value * base + digit, if m.sawPoint then m.places + 1 else m.places, m.sawPoint, true⟩

/-- Digits with at most one point among them, underscores passed over. -/
def scanMantissa (base : Nat) : Mantissa → List Char → Mantissa × List Char
  | m, [] => (m, [])
  | m, c :: rest =>
      if c == '_' then scanMantissa base m rest
      else if c == '.' then
        if m.sawPoint then (m, c :: rest) else scanMantissa base { m with sawPoint := true } rest
      else
        match digit? base c with
        | some d => scanMantissa base (m.push base d) rest
        | none => (m, c :: rest)

/-- The digits of an exponent, underscores passed over. Past four digits the exponent no longer grows:
such a number is out of range whatever its mantissa. -/
def scanExponentDigits : Nat → List Char → Nat × List Char
  | e, [] => (e, [])
  | e, c :: rest =>
      if c == '_' then scanExponentDigits e rest
      else if c.isDigit then
        scanExponentDigits (if e < 10000 then e * 10 + (c.toNat - '0'.toNat) else e) rest
      else (e, c :: rest)

/-- A sign and at least one digit. -/
def scanExponent : List Char → Option (Int × List Char)
  | cs =>
      let (negative, digits) := match cs with
        | '+' :: rest => (false, rest)
        | '-' :: rest => (true, rest)
        | rest => (false, rest)
      match digits with
      | [] => none
      | c :: _ =>
          if c.isDigit then
            let (e, rest) := scanExponentDigits 0 digits
            some (if negative then -(e : Int) else e, rest)
          else none

/-- What the character before an underscore must be: a digit, or the mark of a base. -/
inductive Seen where
  | digit
  | underscore
  | other
deriving DecidableEq

/-- Every underscore follows a digit or the mark of a base and is followed by a digit. -/
def underscoresFrom (hex : Bool) : Seen → List Char → Bool
  | seen, [] => seen != .underscore
  | seen, c :: rest =>
      if (digit? (if hex then 16 else 10) c).isSome then underscoresFrom hex .digit rest
      else if c == '_' then seen == .digit && underscoresFrom hex .underscore rest
      else seen != .underscore && underscoresFrom hex .other rest

def dropSign : List Char → Bool × List Char
  | '+' :: rest => (false, rest)
  | '-' :: rest => (true, rest)
  | cs => (false, cs)

def underscoresAllowed (numeral : List Char) : Bool :=
  match (dropSign numeral).2 with
  | '0' :: mark :: rest =>
      if mark.toLower == 'x' then underscoresFrom true .digit rest
      else if mark.toLower == 'b' || mark.toLower == 'o' then underscoresFrom false .digit rest
      else underscoresFrom false .other ('0' :: mark :: rest)
  | cs => underscoresFrom false .other cs

/-- The mark of a hexadecimal numeral with something after it. -/
def dropHexMark : List Char → Option (List Char)
  | '0' :: mark :: c :: rest => if mark.toLower == 'x' then some (c :: rest) else none
  | _ => none

/-- A numeral made of digits, before its underscores are checked. -/
def scanDigits (cs : List Char) : Option (Numeral × List Char) :=
  let (negative, body) := dropSign cs
  match dropHexMark body with
  | some hexBody =>
      let (m, rest) := scanMantissa 16 .empty hexBody
      match rest with
      | c :: afterMark =>
          if m.sawDigit && c.toLower == 'p' then
            (scanExponent afterMark).map fun (e, rest) =>
              (binary negative m.value (e - 4 * m.places), rest)
          else none
      | [] => none
  | none =>
      let (m, rest) := scanMantissa 10 .empty body
      if !m.sawDigit then none
      else
        match rest with
        | c :: afterMark =>
            if c.toLower == 'e' then
              (scanExponent afterMark).map fun (e, rest) =>
                (decimal negative m.value (e - m.places), rest)
            else some (decimal negative m.value (-m.places), rest)
        | [] => some (decimal negative m.value (-m.places), [])

/-- The rest of a text after a word, in either case. -/
def dropWord (word cs : List Char) : Option (List Char) :=
  if (cs.take word.length).map Char.toLower == word then some (cs.drop word.length) else none

def scanInfinity (negative : Bool) (cs : List Char) : Option (Numeral × List Char) :=
  match dropWord "infinity".toList cs with
  | some rest => some (infinity negative, rest)
  | none => (dropWord "inf".toList cs).map fun rest => (infinity negative, rest)

def scanWord : List Char → Option (Numeral × List Char)
  | '+' :: rest => scanInfinity false rest
  | '-' :: rest => scanInfinity true rest
  | cs =>
      match scanInfinity false cs with
      | some found => some found
      | none => (dropWord "nan".toList cs).map fun rest => (notANumber, rest)

/-- The longest numeral at the front of a text and what follows it. -/
def scan (cs : List Char) : Option (Numeral × List Char) :=
  match scanWord cs with
  | some found => some found
  | none =>
      (scanDigits cs).filter fun (_, rest) =>
        underscoresAllowed (cs.take (cs.length - rest.length))

/-- Why a text is not the numeral of a double. -/
inductive Refusal where
  | malformed
  | outOfRange
deriving Repr, DecidableEq

/-- The double that a whole text is the numeral of. -/
def read (cs : List Char) : Except Refusal Float :=
  match scan cs with
  | some (numeral, []) => if numeral.overflows then .error .outOfRange else .ok numeral.value
  | _ => .error .malformed

end Numeral

end Entangle
