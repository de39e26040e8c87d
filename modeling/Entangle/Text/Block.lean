import Entangle.Text.Blank
import Entangle.Text.CellWidth

/-!
# Blocks of text

Lines of one width, boxes and columns, measured in cells of a terminal.
-/

namespace Entangle.Text

def splitLinesFrom : List Char → List Char → List String
  | line, [] => [String.ofList line.reverse]
  | line, c :: rest =>
      if c == '\n' then String.ofList line.reverse :: splitLinesFrom [] rest
      else splitLinesFrom (c :: line) rest

/-- The parts of a text between line feeds. -/
def splitLines (s : String) : List String := splitLinesFrom [] s.toList

def widest (lines : List String) : Nat := lines.foldl (fun w line => max w (cellWidth line)) 0

/-- Lines filled up with spaces to the width of the widest. -/
def squared (lines : List String) : List String := lines.map (fillCells (widest lines))

/-- A tab stands for four spaces; a carriage return before a line feed is dropped. -/
def settle : List Char → List Char
  | [] => []
  | '\t' :: rest => ' ' :: ' ' :: ' ' :: ' ' :: settle rest
  | '\r' :: '\n' :: rest => '\n' :: settle rest
  | c :: rest => c :: settle rest

/-- A text as lines of one width. -/
def block (s : String) : String :=
  "\n".intercalate (squared (splitLines (String.ofList (settle s.toList))))

def rule (width : Nat) : String := String.ofList (List.replicate width '─')

/-- Lines in a box with round corners, with a space at both sides. -/
def box (lines : List String) : String :=
  let body := squared (lines.map fun line => " " ++ line ++ " ")
  let edge := rule (widest body)
  "\n".intercalate
    (["╭" ++ edge ++ "╮"] ++ body.map (fun line => "│" ++ line ++ "│") ++ ["╰" ++ edge ++ "╯"])

/-- The widths that columns need to hold all rows. -/
def columnWidths : List (List String) → List Nat
  | [] => []
  | row :: rest => List.zipWithAll (fun w cell => max (w.getD 0) (cellWidth (cell.getD "")))
      (columnWidths rest) row

/-- Cells filled up to the widths of their columns, two spaces apart, without spaces at the end. -/
def rowText (widths : List Nat) (row : List String) : String :=
  String.ofList
    (dropEndWhile (· == ' ') ("  ".intercalate (List.zipWith fillCells widths row)).toList)

/-- Rows in aligned columns, one a line. -/
def table (rows : List (List String)) : String :=
  String.join (rows.map fun row => rowText (columnWidths rows) row ++ "\n")

end Entangle.Text
