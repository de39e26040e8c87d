/-!
# Symmetry classes

The symmetric points, lines and faces of the chamber of interaction angles. A canonical form of a
class other than `general` has some of its inner one-qubit rotations fixed, so that it is unique.
-/

namespace Entangle.Weyl

inductive Class where
  | general
  /-- `(0, 0, 0)` -/
  | identity
  /-- `(π/4, π/4, ±π/4)` -/
  | swap
  /-- `(x, x, x)` -/
  | partialSwap
  /-- `(x, x, -x)` -/
  | partialSwapFlip
  /-- `(x, 0, 0)` -/
  | controlled
  /-- `(π/4, π/4, x)` -/
  | mirrorControlled
  /-- `(x, x, y)` -/
  | aab
  /-- `(x, y, y)` -/
  | abb
  /-- `(x, y, -y)` -/
  | abmb
deriving Repr, DecidableEq, Inhabited

namespace Class

def all : List Class :=
  [general, identity, swap, partialSwap, partialSwapFlip, controlled, mirrorControlled, aab, abb, abmb]

def name : Class → String
  | general => "General"
  | identity => "IdEquiv"
  | swap => "SWAPEquiv"
  | partialSwap => "PartialSWAPEquiv"
  | partialSwapFlip => "PartialSWAPFlipEquiv"
  | controlled => "ControlledEquiv"
  | mirrorControlled => "MirrorControlledEquiv"
  | aab => "fSimaabEquiv"
  | abb => "fSimabbEquiv"
  | abmb => "fSimabmbEquiv"

/-- The class with a given number, counted from zero in the order of `all`. -/
def ofNumber? (number : UInt8) : Option Class := all[number.toNat]?

def ofName? (text : String) : Option Class := all.find? fun k => k.name == text

/-- The name of a class number, also of one that belongs to no class. -/
def nameOfNumber (number : UInt8) : String :=
  match ofNumber? number with
  | some k => k.name
  | none => s!"Specialization({number.toNat})"

end Class

end Entangle.Weyl
