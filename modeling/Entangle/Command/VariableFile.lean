import Entangle.Command.Setting

/-!
# Files of variables

A file may bind variables of the environment, one statement a line: a name, an equals sign or a colon,
and a text, with the word `export` before it if need be. A text may stand between quotes and may then
have several lines. A number sign after a blank begins a comment. Texts refer to variables bound before
them by a dollar sign, unless they stand between single quotes. A file with a malformed statement binds
nothing.
-/

namespace Entangle.Command.VariableFile

/-- Blank characters within a line. -/
def isInnerBlank (c : Char) : Bool :=
  let n := c.toNat
  n == 9 || (11 ≤ n && n ≤ 13) || n == 0x20 || n == 0x85 || n == 0xA0

def isLineEnd (c : Char) : Bool := c == '\n' || c == '\r'

def dropInnerBlanks (cs : List Char) : List Char := cs.dropWhile isInnerBlank

/-- A line feed stands for a carriage return with a line feed. -/
def joinLineEnds : List Char → List Char
  | [] => []
  | '\r' :: '\n' :: rest => '\n' :: joinLineEnds rest
  | c :: rest => c :: joinLineEnds rest

/-- The text from the next statement on; blanks, and comments up to the end of their line, are passed
over. The flag says that a comment is being read. -/
def nextStatement : Bool → List Char → List Char
  | _, [] => []
  | true, c :: rest => nextStatement (c != '\n') rest
  | false, c :: rest =>
      if Text.isBlank c then nextStatement false rest
      else if c == '#' then nextStatement true rest
      else c :: rest

/-! ## Names -/

def dropExport (cs : List Char) : List Char :=
  match cs with
  | 'e' :: 'x' :: 'p' :: 'o' :: 'r' :: 't' :: c :: rest =>
      if isInnerBlank c then dropInnerBlanks rest else cs
  | _ => cs

/-- Bytes from 128 on that may be part of a name: those that number a letter, a digit or a blank of the
first 256 characters. -/
def isNameByte (b : UInt8) : Bool :=
  let n := b.toNat
  n == 0x85 || n == 0xA0 || n == 0xAA || n == 0xB2 || n == 0xB3 || n == 0xB5 || n == 0xB9 || n == 0xBA ||
    (0xBC ≤ n && n ≤ 0xBE) || (0xC0 ≤ n && n != 0xD7 && n != 0xF7)

/-- The characters that may stand before the sign of a binding. -/
def isNamePart (c : Char) : Bool :=
  if c.toNat < 0x80 then isInnerBlank c || c.isAlphanum || c == '_' || c == '.'
  else (String.utf8EncodeChar c).all isNameByte

def isBindingSign (c : Char) : Bool := c == '=' || c == ':'

/-- The name of a statement and what follows the sign of the binding. A statement without a sign binds
the empty name to all its text. -/
def splitName (statement : List Char) : Option (List Char × List Char) :=
  let cs := dropExport statement
  let name := cs.takeWhile fun c => !isBindingSign c
  if cs.isEmpty || !name.all isNamePart then none
  else
    match cs.dropWhile fun c => !isBindingSign c with
    | _ :: rest => some (Text.dropEndWhile Text.isBlank name, dropInnerBlanks rest)
    | [] => some ([], dropInnerBlanks cs)

/-! ## References -/

def isReferencePart (c : Char) : Bool := c.isUpper || c.isDigit || c == '_'

/-- The characters without the first, if it is the given one. -/
def dropOne (c : Char) : List Char → List Char
  | d :: rest => if d = c then rest else d :: rest
  | [] => []

/-- What follows a dollar sign: brackets that may be left out, and a name. -/
def referenceBody (cs : List Char) : List Char := dropOne '\x7b' (dropOne '(' cs)

def referenceName (cs : List Char) : List Char := (referenceBody cs).takeWhile isReferencePart

def afterReference (cs : List Char) : List Char :=
  dropOne '\x7d' ((referenceBody cs).dropWhile isReferencePart)

/-- The reference as it is spelled. -/
def spelledReference (cs : List Char) : List Char := cs.take (cs.length - (afterReference cs).length)

theorem length_dropOne_le (c : Char) (cs : List Char) : (dropOne c cs).length ≤ cs.length := by
  cases cs with
  | nil => exact Nat.le_refl _
  | cons d rest =>
      by_cases h : d = c
      · simp [dropOne, h]
      · simp [dropOne, h]

theorem length_dropWhile_le {α : Type} (test : α → Bool) (cs : List α) :
    (cs.dropWhile test).length ≤ cs.length :=
  (List.dropWhile_sublist test).length_le

theorem length_afterReference_le (cs : List Char) : (afterReference cs).length ≤ cs.length :=
  calc (afterReference cs).length
      ≤ ((referenceBody cs).dropWhile isReferencePart).length := length_dropOne_le _ _
    _ ≤ (referenceBody cs).length := length_dropWhile_le _ _
    _ ≤ (dropOne '(' cs).length := length_dropOne_le _ _
    _ ≤ cs.length := length_dropOne_le _ _

/-- The text with each reference replaced by the text of its variable. A backslash before the dollar
sign keeps the reference and is dropped. -/
def expand (vars : Environment) : List Char → List Char
  | [] => []
  | '\\' :: '$' :: rest => '$' :: (spelledReference rest ++ expand vars (afterReference rest))
  | '$' :: rest =>
      let name := String.ofList (referenceName rest)
      let text := if name.isEmpty then '$' :: spelledReference rest
        else ((vars.get? name).getD "").toList
      text ++ expand vars (afterReference rest)
  | c :: rest => c :: expand vars rest
termination_by cs => cs.length
decreasing_by
  · have := length_afterReference_le rest
    simp only [List.length_cons]
    omega
  · have := length_afterReference_le rest
    simp only [List.length_cons]
    omega
  · simp

/-! ## Texts -/

/-- The escapes for a line feed and a carriage return; a backslash and the character after it are read
together. -/
def lineEscapes : List Char → List Char
  | [] => []
  | '\\' :: c :: rest =>
      if c == '\n' then '\\' :: '\n' :: lineEscapes rest
      else if c == 'n' then '\n' :: lineEscapes rest
      else if c == 'r' then '\r' :: lineEscapes rest
      else '\\' :: c :: lineEscapes rest
  | c :: rest => c :: lineEscapes rest

/-- A backslash before any character but a dollar sign is dropped. -/
def plainEscapes : List Char → List Char
  | [] => []
  | '\\' :: c :: rest => if c == '$' then '\\' :: '$' :: plainEscapes rest else c :: plainEscapes rest
  | c :: rest => c :: plainEscapes rest

/-- What stands before a closing quote that no backslash precedes, and what follows the quote. -/
def splitQuoted (quote : Char) : Char → List Char → Option (List Char × List Char)
  | _, [] => none
  | before, c :: rest =>
      if c == quote && before != '\\' then some ([], rest)
      else (splitQuoted quote c rest).map fun (text, tail) => (c :: text, tail)

/-- A quoted text; quotes at its ends are dropped. -/
def quotedText (vars : Environment) (quote : Char) (body : List Char) :
    Option (List Char × List Char) :=
  (splitQuoted quote quote body).map fun (text, rest) =>
    let inner := (Text.dropEndWhile (· == quote) text).dropWhile (· == quote)
    (if quote == '"' then expand vars (plainEscapes (lineEscapes inner)) else inner, rest)

/-- What precedes the last number sign that a blank precedes, both lists read backwards. -/
def beforeComment? : List Char → Option (List Char)
  | [] => none
  | c :: before =>
      if c == '#' && before.head?.any isInnerBlank then some before else beforeComment? before

/-- A text without quotes reaches to the end of its line or to a comment. -/
def plainText (vars : Environment) (cs : List Char) : List Char × List Char :=
  let line := cs.takeWhile fun c => !isLineEnd c
  let text := ((beforeComment? line.reverse).getD line.reverse).dropWhile isInnerBlank
  (expand vars (dropInnerBlanks text.reverse), cs.dropWhile fun c => !isLineEnd c)

def splitText (vars : Environment) (cs : List Char) : Option (List Char × List Char) :=
  match cs with
  | '"' :: body => quotedText vars '"' body
  | '\'' :: body => quotedText vars '\'' body
  | _ => some (plainText vars cs)

/-! ## Statements -/

/-- The binding at the front of a text, and what follows it. -/
def statement (vars : Environment) (cs : List Char) : Option ((String × String) × List Char) := do
  let (name, afterName) ← splitName cs
  let (text, rest) ← splitText vars afterName
  return ((String.ofList name, String.ofList text), rest)

/-- The bindings of a text after those already read, the last one first. A statement takes at least one
character, so the test only says that reading ends. -/
def statementsFrom (vars : Environment) (cs : List Char) : Option Environment :=
  match nextStatement false cs with
  | [] => some vars
  | start =>
      match statement vars start with
      | none => none
      | some (binding, rest) =>
          if _h : rest.length < cs.length then statementsFrom (binding :: vars) rest else none
termination_by cs.length

def parse (text : String) : Option Environment := statementsFrom [] (joinLineEnds text.toList)

/-- The first binding of each name. -/
def settled : Environment → Environment
  | [] => []
  | binding :: rest => binding :: (settled rest).filter fun other => other.1 != binding.1

/-- A binding that an environment can hold. -/
def isHeld (binding : String × String) : Bool :=
  !binding.1.isEmpty && !binding.2.toList.contains '\x00'

end VariableFile

/-- The environment with the variables of a file that are not yet set. A name whose last text cannot be
held stays unset, whatever the file bound it to before. -/
def Environment.extended (env : Environment) (file : Option String) : Environment :=
  env ++ (VariableFile.settled ((file.bind VariableFile.parse).getD [])).filter VariableFile.isHeld

end Entangle.Command
