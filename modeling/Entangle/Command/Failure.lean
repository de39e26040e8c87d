import Entangle.Command.Flag
import Entangle.Fault.Message

/-!
# Failures of a run

Why a run of the command ends without its output, and the wording.
-/

namespace Entangle.Command

inductive Failure where
  | fault (fault : Fault Float)
  /-- a failure in a part of the run that has a name -/
  | during (label : String) (failure : Failure)
  | flag (refusal : Flag.Refusal)
  | fidelityOutside (fidelity : Float)
  | unknownFormat (text : String)
  | targetCount (count : Nat)
  /-- a gate that does not act on two qubits -/
  | qubitCount (gate : String) (count : Nat)
  /-- a circuit is asked of a report that has none -/
  | noCircuit
  /-- a number that a structured report cannot hold -/
  | unwritable (x : Float)

def Flag.Refusal.message : Flag.Refusal → String
  | malformed argument => "bad flag syntax: " ++ argument
  | undefined name => "flag provided but not defined: -" ++ name
  | missingText name => "flag needs an argument: -" ++ name
  | notBoolean text name =>
      "invalid boolean value " ++ Text.quote text ++ " for -" ++ name ++ ": parse error"
  | help => "flag: help requested"

namespace Failure

def message : Failure → String
  | fault f => f.message
  | during label failure => label ++ ": " ++ failure.message
  | flag refusal => refusal.message
  | fidelityOutside x => "fidelity " ++ Decimal.general x ++ " outside [0, 1]"
  | unknownFormat text => "unknown format " ++ Text.quote text
  | targetCount count => s!"expected one target, got {count} (see -h)"
  | qubitCount gate count => s!"{gate} acts on {count} qubits, want 2"
  | noCircuit => "no circuit to render (-weyl set)"
  | unwritable x => "json: unsupported value: " ++ Decimal.general x

end Failure

/-- An outcome of the library as that of a run. -/
def lift {β : Type} (outcome : Outcome Float β) : Except Failure β := outcome.mapError .fault

/-- A result in a part of the run that has a name. -/
def during {β : Type} (label : String) (result : Except Failure β) : Except Failure β :=
  result.mapError (.during label)

end Entangle.Command
