import Entangle.Text.Cluster
import Entangle.Text.WidthTable

/-!
# Terminal cells

The number of cells that a text takes on a terminal. A cluster is as wide as its first character that
takes a cell.
-/

namespace Entangle.Text

/-- Characters without a shape: controls, soft hyphen, direction marks. -/
def shapelessRuns : Runs := #[
  (0x0, 0x1F), (0x7F, 0x9F), (0xAD, 0xAD), (0x70F, 0x70F), (0x180B, 0x180E), (0x200B, 0x200F),
  (0x2028, 0x202E), (0x206A, 0x206F), (0xFEFF, 0xFEFF), (0xFFF9, 0xFFFB), (0xFFFE, 0xFFFF)]

def charWidth (c : Char) : Nat :=
  if shapelessRuns.hold c then 0
  else if c.toNat < 0x300 then 1
  else if combiningRuns.hold c then 0
  else if wideRuns.hold c then 2
  else 1

def clusterWidth : List Char → Nat
  | [] => 0
  | c :: rest => if charWidth c = 0 then clusterWidth rest else charWidth c

def cellWidth (s : String) : Nat := ((clusters s.toList).map clusterWidth).foldl (· + ·) 0

/-- The text with spaces added up to a number of cells. -/
def fillCells (width : Nat) (s : String) : String :=
  s ++ String.ofList (List.replicate (width - cellWidth s) ' ')

end Entangle.Text
