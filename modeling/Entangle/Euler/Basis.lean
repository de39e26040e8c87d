import Entangle.Fault
import Entangle.Text.Blank
import Entangle.Text.Case

/-!
# Gate sets for one qubit

The sets of gates that a one-qubit unitary can be written over.
-/

namespace Entangle.Euler

inductive Basis where
  | u3 | u321 | u | psx | u1x | rr | zyz | zxz | xyx | xzx | zsx | zsxx
deriving Repr, DecidableEq, Inhabited

namespace Basis

def all : List Basis := [u3, u321, u, psx, u1x, rr, zyz, zxz, xyx, xzx, zsx, zsxx]

def name : Basis → String
  | u3 => "U3" | u321 => "U321" | u => "U" | psx => "PSX" | u1x => "U1X" | rr => "RR"
  | zyz => "ZYZ" | zxz => "ZXZ" | xyx => "XYX" | xzx => "XZX" | zsx => "ZSX" | zsxx => "ZSXX"

/-- The place of the set in `all`. -/
def number (b : Basis) : Nat := all.findIdx (· == b)

def ofNumber? (number : UInt8) : Option Basis := all[number.toNat]?

/-- The name of a number, also of one that belongs to no set. -/
def nameOfNumber (number : UInt8) : String :=
  match ofNumber? number with
  | some b => b.name
  | none => s!"Basis({number.toNat})"

def ofNumber {α : Type} (number : UInt8) : Outcome α Basis :=
  match ofNumber? number with
  | some b => .ok b
  | none => .error (Cause.within (.subject (nameOfNumber number)) .unknownBasis)

/-- The set with a given name, in either case and with blanks at both ends. -/
def parse {α : Type} (text : String) : Outcome α Basis :=
  match all.find? fun b => b.name == Text.latinUpper (Text.trim text) with
  | some b => .ok b
  | none => .error (Cause.within (.quoted text) .unknownBasis)

end Basis

end Entangle.Euler
