import Entangle.Cx
import Entangle.Decimal.Numeral

/-!
# Complex numerals

Reading a complex number from text: one numeral, with the suffix of the imaginary unit if it is
imaginary, or a real numeral followed by a signed imaginary one. One pair of parentheses around the
whole is dropped.
-/

namespace Entangle.Numeral

def dropParentheses (cs : List Char) : List Char :=
  match cs with
  | '(' :: rest => if rest.getLast? == some ')' then rest.dropLast else cs
  | _ => cs

/-- The text of the imaginary part, when another part follows the first numeral. A plus sign is passed
over unless another one follows it. -/
def imaginaryText : List Char → Option (List Char)
  | '+' :: '+' :: rest => some ('+' :: '+' :: rest)
  | ['+'] => some ['+']
  | '+' :: rest => some rest
  | '-' :: rest => some ('-' :: rest)
  | _ => none

/-- The parts of a complex numeral; the part that is not written is a zero. -/
def scanComplex (cs : List Char) : Option (Numeral × Numeral) :=
  let zero := decimal false 0 0
  match scan (dropParentheses cs) with
  | none => none
  | some (first, []) => some (first, zero)
  | some (first, ['i']) => some (zero, first)
  | some (first, rest) =>
      match (imaginaryText rest).bind scan with
      | some (second, ['i']) => some (first, second)
      | _ => none

/-- The complex number that a whole text is the numeral of. -/
def readComplex (cs : List Char) : Except Refusal (Cx Float) :=
  match scanComplex cs with
  | none => .error .malformed
  | some (re, im) =>
      if re.overflows || im.overflows then .error .outOfRange else .ok ⟨re.value, im.value⟩

end Entangle.Numeral
