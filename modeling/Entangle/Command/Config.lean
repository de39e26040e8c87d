import Entangle.Command.Failure
import Entangle.Euler.Basis
import Entangle.Synthesis.PulseMode

/-!
# Configuration

What the flags and the environment make of a run. A flag wins over the variable of its setting, and a
variable over the fallback.
-/

namespace Entangle.Command

/-- How a report is written. -/
inductive Format where
  | text
  | qasm
  | json
deriving Repr, DecidableEq

namespace Format

def all : List Format := [text, qasm, json]

def name : Format → String
  | text => "text"
  | qasm => "qasm"
  | json => "json"

/-- The format with a given name, in either case and with blanks at both ends. -/
def parse (s : String) : Except Failure Format :=
  match all.find? fun f => f.name == Text.lower (Text.trim s) with
  | some f => .ok f
  | none => .error (.unknownFormat s)

end Format

structure Config where
  basisGate : String
  /-- the gate family to synthesise over; where it is empty, the basis gate is used -/
  family : String
  euler : Euler.Basis
  fidelity : Float
  pulse : Synthesis.PulseMode
  format : Format
  weylOnly : Bool
  /-- gates may be saved at the cost of fidelity -/
  approximate : Bool

/-- The fidelity that a text denotes. -/
def parseFidelity (text : String) : Except Failure Float :=
  let trimmed := Text.trim text
  match Numeral.read trimmed.toList with
  | .error refusal =>
      .error (.during ("fidelity " ++ Text.quote text) (.fault (.numeral .real trimmed refusal)))
  | .ok x => if Scalar.isProbability x then .ok x else .error (.fidelityOutside x)

namespace Config

/-- The text of a setting. -/
def textOf (given : Flag.Given) (env : Environment) (s : Setting) : String :=
  (given.text s).getD (env.default s)

/-- The configuration that the texts of the settings make. -/
def ofTexts (text : Setting → String) (isOn : Switch → Bool) : Except Failure Config := do
  let euler ← lift (Euler.Basis.parse (text .euler))
  let fidelity ← parseFidelity (text .fidelity)
  let pulse ← lift (Synthesis.PulseMode.parse (text .pulse))
  let format ← Format.parse (text .format)
  return {
    basisGate := Text.trim (text .basisGate)
    family := Text.trim (text .family)
    euler := euler
    fidelity := fidelity
    pulse := pulse
    format := format
    weylOnly := isOn .weyl
    approximate := !isOn .exact }

/-- The configuration of a run and the arguments that are no flags. -/
def parse (arguments : List String) (env : Environment) : Except Failure (Config × List String) := do
  let (given, rest) ← (Flag.read arguments).mapError Failure.flag
  let config ← ofTexts (textOf given env) given.isOn
  return (config, rest)

end Config

end Entangle.Command
