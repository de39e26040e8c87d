/-!
# Standard gates

The names, arities and parameter counts of the standard one- and two-qubit gates.
-/

namespace Entangle.Gate

inductive Standard where
  | id | h | x | y | z | s | sdg | t | tdg | sx | sxdg
  | rx | ry | rz | p | u1 | u2 | u3 | u | r
  | cx | cy | cz | swap | iswap
  | rxx | ryy | rzz | rzx | cp | crx | cry | crz
deriving Repr, DecidableEq, Inhabited

namespace Standard

def all : List Standard :=
  [id, h, x, y, z, s, sdg, t, tdg, sx, sxdg,
    rx, ry, rz, p, u1, u2, u3, u, r,
    cx, cy, cz, swap, iswap,
    rxx, ryy, rzz, rzx, cp, crx, cry, crz]

def name : Standard → String
  | id => "id" | h => "h" | x => "x" | y => "y" | z => "z"
  | s => "s" | sdg => "sdg" | t => "t" | tdg => "tdg" | sx => "sx" | sxdg => "sxdg"
  | rx => "rx" | ry => "ry" | rz => "rz" | p => "p"
  | u1 => "u1" | u2 => "u2" | u3 => "u3" | u => "u" | r => "r"
  | cx => "cx" | cy => "cy" | cz => "cz" | swap => "swap" | iswap => "iswap"
  | rxx => "rxx" | ryy => "ryy" | rzz => "rzz" | rzx => "rzx" | cp => "cp"
  | crx => "crx" | cry => "cry" | crz => "crz"

/-- How many qubits the gate acts on. -/
def qubits : Standard → Nat
  | cx | cy | cz | swap | iswap | rxx | ryy | rzz | rzx | cp | crx | cry | crz => 2
  | _ => 1

/-- How many angles the gate takes. -/
def angles : Standard → Nat
  | rx | ry | rz | p | u1 | rxx | ryy | rzz | rzx | cp | crx | cry | crz => 1
  | u2 | r => 2
  | u3 | u => 3
  | _ => 0

/-- The place of the gate in `all`. -/
def number (g : Standard) : Nat := all.findIdx (· == g)

def ofNumber? (number : Nat) : Option Standard := all[number]?

def ofName? (text : String) : Option Standard := all.find? fun g => g.name == text

theorem mem_all (g : Standard) : g ∈ all := by cases g <;> decide

end Standard

end Entangle.Gate
