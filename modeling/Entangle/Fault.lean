import Entangle.Decimal.Numeral
import Entangle.Weyl.Class

/-!
# Faults

Why a computation has no result. A fault is a cause, the places it passed through on its way out, and
the numbers that explain it; the wording is in `Fault.message`.
-/

namespace Entangle

inductive Cause where
  | invalidDimensions
  | indexOutOfRange
  | dimensionMismatch
  | nonFiniteEntry
  | absentMatrix
  | eigenFailed
  | notUnitary
  | asymmetric
  | parameterCount
  | noInverse
  | unknownGate
  | badParameter
  | qubitIndex
  | arity
  | unknownBasis
  | nonFiniteRotation
  | degenerateEigenproblem
  | notProduct
  | nonFiniteTarget
  | unsupportedPulse
  | notTwoQubit
  | lineTooLong
deriving Repr, DecidableEq

/-- What a fault passed through. -/
inductive Place (α : Type) where
  /-- a named operation of the library -/
  | step (name : String)
  | subject (name : String)
  | quoted (text : String)
  | emptyExpression
  /-- reading (`At`) or writing (`Set`) one entry -/
  | entry (access : String) (i j : Int)
  | shape (rows cols : Int)
  | shapeWanted (rows cols : Int)
  | raggedRow (index count wanted : Nat)
  | deviation (worst atol : α)
  | asymmetry (i j : Nat) (upper lower : α)
  | line (number : Nat)
  | parameters (gate : String) (got want : Nat)
  | instruction (index : Nat) (gate : String)
  | instructionQubit (index : Nat) (gate : String) (qubit : Int)
  | repeatedQubit
  | inverseOf (index : Nat)
  | trials (count : Nat)
  | rightFactor (det : α)
  | leftFactor (det : α)
  | pulseBasis (basis : String)
  | pulseGate (gate : String)
  | pulseSearch
deriving Repr

/-- A value that an option refuses. -/
inductive Rejection where
  | eigenTolerance
  | eigenBudget
  | eulerQubit
  | eulerTolerance
  | fidelity
  | forcedClass
  | circuitBasis
  | circuitTolerance
  | gateFidelity
  | correctionBasis
  | pulseMode
  | gateFidelityOverride
  | gateUses
  | familyBasis
  | familyTolerance
deriving Repr, DecidableEq

/-- What a numeral was read for. -/
inductive NumeralKind where
  | real
  | complex
deriving Repr, DecidableEq

inductive Fault (α : Type) where
  | plain (cause : Cause)
  | within (place : Place α) (fault : Fault α)
  | numeral (kind : NumeralKind) (text : String) (refusal : Numeral.Refusal)
  /-- the class that was fitted misses the requested fidelity -/
  | fidelity (fitted : Weyl.Class) (calculated requested : α)
  | unknownPulseMode (text : String)
  /-- a gate family must act on two qubits with one angle -/
  | familySignature (gate : String)
  /-- the probes of a gate family disagree on its scale -/
  | familyScales (scales : List α)
  /-- a probe of a gate family has no canonical form of the right class -/
  | familyProbe (angle : α) (fault : Fault α)
  /-- a probe of a gate family does not match a scaled interaction -/
  | familyMismatch (angle : α) (gate : String)
  | rejected (option : Rejection)
  /-- a gate number outside the table was asked for its arity -/
  | undefinedGate (number : Nat)
  /-- an access outside the storage of a matrix -/
  | storage
  /-- the failure of a gate that the caller defined -/
  | caller (text : String)
deriving Repr

abbrev Outcome (α β : Type) := Except (Fault α) β

namespace Fault

variable {α : Type}

/-- The cause under all places. -/
def cause? : Fault α → Option Cause
  | plain cause => some cause
  | within _ fault => fault.cause?
  | _ => none

end Fault

/-- A cause found at a place. -/
def Cause.within {α : Type} (place : Place α) (cause : Cause) : Fault α := .within place (.plain cause)

/-- The outcome seen from an enclosing operation: a fault gains a place. -/
def Outcome.within {α β : Type} (place : Place α) (outcome : Outcome α β) : Outcome α β :=
  outcome.mapError (Fault.within place)

/-- The outcome seen from a named operation. -/
def Outcome.step {α β : Type} (name : String) (outcome : Outcome α β) : Outcome α β :=
  Outcome.within (.step name) outcome

section Results

variable {α β γ ε ε' : Type}

/-- What is done to the errors does not touch a result. -/
theorem mapError_eq_ok {change : ε → ε'} {outcome : Except ε β} {result : β} :
    outcome.mapError change = .ok result ↔ outcome = .ok result := by
  cases outcome with
  | error fault => constructor <;> intro same <;> cases same
  | ok value => constructor <;> intro same <;> cases same <;> rfl

/-- A computation in two steps gives a result where both steps do. -/
theorem bind_eq_ok {first : Except ε β} {second : β → Except ε γ} {result : γ} :
    (do second (← first)) = .ok result ↔ ∃ b, first = .ok b ∧ second b = .ok result := by
  cases first <;> simp [bind, Except.bind]

theorem mapError_eq_error {change : ε → ε'} {outcome : Except ε β} {fault : ε'} :
    outcome.mapError change = .error fault ↔ ∃ inner, outcome = .error inner ∧ change inner = fault := by
  cases outcome with
  | error inner =>
    constructor
    · intro same
      exact ⟨inner, rfl, Except.error.inj same⟩
    · rintro ⟨inner', same, rfl⟩
      obtain rfl := Except.error.inj same
      rfl
  | ok value =>
    constructor
    · intro same
      cases same
    · rintro ⟨inner, same, -⟩
      cases same

/-- It fails where the first step does, or the second after it. -/
theorem bind_eq_error {first : Except ε β} {second : β → Except ε γ} {fault : ε} :
    (do second (← first)) = .error fault ↔ first = .error fault ∨ ∃ b, first = .ok b ∧ second b = .error fault := by
  cases first <;> simp [bind, Except.bind]

theorem Outcome.step_eq_ok {name : String} {outcome : Outcome α β} {result : β} :
    outcome.step name = .ok result ↔ outcome = .ok result :=
  mapError_eq_ok

end Results

end Entangle
