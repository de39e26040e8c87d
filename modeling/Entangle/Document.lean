import Entangle.Decimal.Layout
import Entangle.Text.Quoted

/-!
# Structured documents

Texts, numbers, lists and records, and their written form as JSON: one value a line, two spaces of
indentation for each level. A document is written only if all its numbers are finite.
-/

namespace Entangle

inductive Document where
  | text (s : String)
  | number (x : Float)
  | integer (n : Int)
  | list (items : List Document)
  | record (fields : List (String × Document))

namespace Document

/-- Characters that are written by their number: controls, the signs with a meaning in markup, and the
two separators that end a line in some readers. -/
def isEscapedByNumber (c : Char) : Bool :=
  c.toNat < 0x20 || c == '<' || c == '>' || c == '&' || c.toNat == 0x2028 || c.toNat == 0x2029

def escapeChar (c : Char) : List Char :=
  if c == '"' then ['\\', '"']
  else if c == '\\' then ['\\', '\\']
  else if c == '\x08' then ['\\', 'b']
  else if c == '\x0c' then ['\\', 'f']
  else if c == '\n' then ['\\', 'n']
  else if c == '\r' then ['\\', 'r']
  else if c == '\t' then ['\\', 't']
  else if isEscapedByNumber c then '\\' :: 'u' :: Text.hexDigits 4 c.toNat
  else [c]

def quote (s : String) : String := String.ofList ('"' :: s.toList.flatMap escapeChar ++ ['"'])

def indent (depth : Nat) : String := String.ofList (List.replicate (2 * depth) ' ')

/-- Written values between brackets, each on a line of its own. -/
def enclosed (left right : String) (depth : Nat) (values : List String) : String :=
  if values.isEmpty then left ++ right
  else
    left ++ "\n" ++ ",\n".intercalate (values.map fun v => indent (depth + 1) ++ v) ++ "\n" ++
      indent depth ++ right

mutual

/-- The text of a document that stands at a depth. -/
def textAt : Nat → Document → String
  | _, text s => quote s
  | _, number x => Decimal.report x
  | _, integer n => toString n
  | depth, list items => enclosed "[" "]" depth (itemTexts (depth + 1) items)
  | depth, record fields => enclosed "\x7b" "\x7d" depth (fieldTexts (depth + 1) fields)

def itemTexts : Nat → List Document → List String
  | _, [] => []
  | depth, item :: rest => textAt depth item :: itemTexts depth rest

def fieldTexts : Nat → List (String × Document) → List String
  | _, [] => []
  | depth, (name, value) :: rest => (quote name ++ ": " ++ textAt depth value) :: fieldTexts depth rest

end

mutual

/-- The numbers of a document, in the order in which they are written. -/
def numbers : Document → List Float
  | text _ => []
  | number x => [x]
  | integer _ => []
  | list items => itemNumbers items
  | record fields => fieldNumbers fields

def itemNumbers : List Document → List Float
  | [] => []
  | item :: rest => numbers item ++ itemNumbers rest

def fieldNumbers : List (String × Document) → List Float
  | [] => []
  | (_, value) :: rest => numbers value ++ fieldNumbers rest

end

/-- The written document, or the first of its numbers that cannot be written. -/
def write (d : Document) : Except Float String :=
  match d.numbers.find? fun x => !x.isFinite with
  | some x => .error x
  | none => .ok (textAt 0 d ++ "\n")

end Document

end Entangle
