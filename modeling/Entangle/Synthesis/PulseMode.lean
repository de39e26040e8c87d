import Entangle.Fault
import Entangle.Text.Blank
import Entangle.Text.Case

/-!
# Pulse modes

Whether a synthesised circuit is put into a form for hardware whose rotations about `Z` cost nothing.
-/

namespace Entangle.Synthesis

inductive PulseMode where
  /-- where the form applies -/
  | auto
  /-- always, with a fault where it does not apply -/
  | required
  | off
deriving Repr, DecidableEq, Inhabited

namespace PulseMode

def all : List PulseMode := [auto, required, off]

def name : PulseMode → String
  | auto => "auto"
  | required => "required"
  | off => "off"

/-- The place of the mode in `all`. -/
def number (m : PulseMode) : Nat := all.findIdx (· == m)

def ofNumber? (number : UInt8) : Option PulseMode := all[number.toNat]?

/-- The name of a number, also of one that belongs to no mode. -/
def nameOfNumber (number : UInt8) : String :=
  match ofNumber? number with
  | some m => m.name
  | none => s!"PulseMode({number.toNat})"

/-- The mode with a given name, in either case and with blanks at both ends. -/
def parse {α : Type} (text : String) : Outcome α PulseMode :=
  match all.find? fun m => m.name == Text.lower (Text.trim text) with
  | some m => .ok m
  | none => .error (.unknownPulseMode text)

end PulseMode

end Entangle.Synthesis
