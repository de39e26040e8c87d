import Entangle.Fault
import Entangle.Decimal.Layout
import Entangle.Text.Quoted

/-!
# Messages

The wording of faults. Each place is followed by a colon and what lies within it.
-/

namespace Entangle

def Cause.message : Cause → String
  | .invalidDimensions => "matrix: dimensions must be > 0"
  | .indexOutOfRange => "matrix: index out of range"
  | .dimensionMismatch => "matrix: dimension mismatch"
  | .nonFiniteEntry => "matrix: NaN or Inf encountered"
  | .absentMatrix => "matrix: nil receiver"
  | .eigenFailed => "matrix: eigen decomposition failed"
  | .notUnitary => "matrix: matrix is not unitary"
  | .asymmetric => "matrix: matrix is not symmetric within eps"
  | .parameterCount => "gates: wrong number of parameters"
  | .noInverse => "gates: operation has no inverse in the standard set"
  | .unknownGate => "gates: unknown gate"
  | .badParameter => "gates: invalid parameter expression"
  | .qubitIndex => "circuit: invalid qubit index"
  | .arity => "circuit: operation arity mismatch"
  | .unknownBasis => "euler: unknown basis"
  | .nonFiniteRotation => "euler: matrix has non-finite entries"
  | .degenerateEigenproblem => "weyl: failed to diagonalize M2"
  | .notProduct => "weyl: unable to decompose product gate"
  | .nonFiniteTarget => "weyl: matrix has non-finite entries"
  | .unsupportedPulse => "synth: unsupported pulse optimization"
  | .notTwoQubit => "synth: basis gate must act on two qubits"
  | .lineTooLong => "bufio.Scanner: token too long"

def Place.message : Place Float → String
  | .step name => name
  | .subject name => name
  | .quoted text => Text.quote text
  | .emptyExpression => "empty expression"
  | .entry access i j => s!"Dense.{access}({i},{j})"
  | .shape rows cols => s!"got {rows}x{cols}"
  | .shapeWanted rows cols => s!"got {rows}x{cols}, want 2x2 or 4x4"
  | .raggedRow index count wanted => s!"row {index} has {count} entries, want {wanted}"
  | .deviation worst atol =>
      "max |m·m† - I| = " ++ Decimal.precise 3 worst ++ " > " ++ Decimal.general atol
  | .asymmetry i j upper lower =>
      s!"a[{i}][{j}]=" ++ Decimal.general upper ++ s!" vs a[{j}][{i}]=" ++ Decimal.general lower
  | .line number => s!"line {number}"
  | .parameters gate got want => s!"{gate}: got {got} params, want {want}"
  | .instruction index gate => s!"instruction {index} ({gate})"
  | .instructionQubit index gate qubit => s!"instruction {index} ({gate}) qubit {qubit}"
  | .repeatedQubit => "repeated qubit"
  | .inverseOf index => s!"circuit: inverse of instruction {index}"
  | .trials count => s!"{count} trials"
  | .rightFactor det => "detR = " ++ Decimal.general det ++ " < 0.1"
  | .leftFactor det => "detL = " ++ Decimal.general det ++ " < 0.9"
  | .pulseBasis basis => s!"only ZSX and ZSXX bases are supported ({basis} used)"
  | .pulseGate gate => s!"only the CX entangling gate is supported ({gate} used)"
  | .pulseSearch => "failed to compute requested pulse optimal decomposition"

def Rejection.message : Rejection → String
  | .eigenTolerance => "matrix: WithEigenTolerance requires a finite tol >= 0"
  | .eigenBudget => "matrix: WithEigenMaxIter requires n > 0"
  | .eulerQubit => "euler: WithQubit requires q >= 0"
  | .eulerTolerance => "euler: WithAtol requires a finite atol >= 0"
  | .fidelity => "weyl: WithFidelity requires 0 <= f <= 1"
  | .forcedClass => "weyl: WithSpecialization: unknown specialization"
  | .circuitBasis => "weyl: WithEulerBasis: unknown basis"
  | .circuitTolerance => "weyl: WithAtol requires a finite atol >= 0"
  | .gateFidelity => "synth: WithBasisFidelity requires 0 <= f <= 1"
  | .correctionBasis => "synth: WithEulerBasis: unknown basis"
  | .pulseMode => "synth: WithPulseOptimize: unknown mode"
  | .gateFidelityOverride => "synth: WithBasisFidelityOverride requires 0 <= f <= 1"
  | .gateUses => "synth: WithNumBasisUses requires 0 <= n <= 3"
  | .familyBasis => "controlledu: WithEulerBasis: unknown basis"
  | .familyTolerance => "controlledu: WithAtol requires a finite atol >= 0"

def NumeralKind.reader : NumeralKind → String
  | .real => "strconv.ParseFloat"
  | .complex => "strconv.ParseComplex"

def Numeral.Refusal.message : Numeral.Refusal → String
  | .malformed => "invalid syntax"
  | .outOfRange => "value out of range"

def inequivalent : String := "controlledu: gate is not equivalent to a scaled RXX"

def Fault.message : Fault Float → String
  | .plain cause => cause.message
  | .within place fault => place.message ++ ": " ++ fault.message
  | .numeral kind text refusal =>
      kind.reader ++ ": parsing " ++ Text.quote text ++ ": " ++ refusal.message
  | .fidelity fitted calculated requested =>
      s!"weyl: specialization {fitted.name}: calculated fidelity " ++ Decimal.general calculated ++
        " is worse than requested fidelity " ++ Decimal.general requested
  | .unknownPulseMode text => "synth: unknown pulse mode " ++ Text.quote text
  | .familySignature gate =>
      inequivalent ++ s!": {gate} must be a two-qubit gate with exactly 1 angle parameter"
  | .familyScales scales =>
      inequivalent ++ ": inconsistent scaling parameters [" ++
        " ".intercalate (scales.map Decimal.general) ++ "]"
  | .familyProbe angle fault =>
      inequivalent ++ ": probe " ++ Decimal.general angle ++ ": " ++ fault.message
  | .familyMismatch angle gate =>
      inequivalent ++ ": probe " ++ Decimal.general angle ++ s!": {gate} is not equivalent to an RXX"
  | .rejected option => option.message
  | .undefinedGate number => s!"gate({number}) has no arity"
  | .storage => "matrix storage exceeded"
  | .caller text => text

end Entangle
