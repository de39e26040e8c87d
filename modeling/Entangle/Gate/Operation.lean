import Entangle.Matrix.Dense
import Entangle.Gate.Matrices

/-!
# Operations

What an instruction of a circuit can apply: a standard gate, a family of two-qubit gates with one
angle, or a gate that the caller defines. A number outside the table of standard gates is kept as an
undefined gate; it has a name and nothing else.
-/

namespace Entangle.Gate

variable {α : Type}

/-- A two-qubit gate with one angle. Without an inverse of its own its adjoint has the negated
angle. -/
structure Family (α : Type) where
  label : String
  unitary : α → Mat4 α
  inverseAngle : Option (α → α)

/-- A gate of the caller's: its matrix and the angles of its adjoint are computed and may fail. The
numbers of its qubits and angles are what the caller says, also below zero. -/
structure Custom (α : Type) where
  label : String
  qubits : Int
  angles : Int
  matrix : List α → Outcome α (Dense α)
  inverseAngles : List α → Outcome α (List α)

inductive Operation (α : Type) where
  | standard (gate : Standard)
  | undefined (number : Nat)
  | family (gate : Family α)
  | custom (gate : Custom α)

namespace Operation

def name : Operation α → String
  | standard g => g.name
  | undefined number => s!"gate({number})"
  | family f => f.label
  | custom c => c.label

def qubits : Operation α → Outcome α Int
  | standard g => .ok g.qubits
  | undefined number => .error (.undefinedGate number)
  | family _ => .ok 2
  | custom c => .ok c.qubits

def angles : Operation α → Outcome α Int
  | standard g => .ok g.angles
  | undefined number => .error (.undefinedGate number)
  | family _ => .ok 1
  | custom c => .ok c.angles

def isStandard (op : Operation α) (g : Standard) : Bool :=
  match op with
  | standard g' => g' == g
  | _ => false

/-- The gate with a given number, defined or not. -/
def ofNumber (number : Nat) : Operation α :=
  match Standard.ofNumber? number with
  | some g => standard g
  | none => undefined number

def unknown (op : Operation α) : Fault α := Cause.within (.subject op.name) .unknownGate

def angleCount (label : String) (got want : Nat) : Fault α :=
  Cause.within (.parameters label got want) .parameterCount

variable [Scalar α]

def GateMatrix.dense : GateMatrix α → Dense α
  | .one m => .ofMat2 m
  | .two m => .ofMat4 m

def matrix (op : Operation α) (params : List α) : Outcome α (Dense α) :=
  match op with
  | standard g =>
      match g.matrix? params with
      | some m => .ok (GateMatrix.dense m)
      | none => .error (angleCount g.name params.length g.angles)
  | undefined _ => .error op.unknown
  | family f =>
      match params with
      | [theta] => .ok (.ofMat4 (f.unitary theta))
      | _ => .error (angleCount f.label params.length 1)
  | custom c => c.matrix params

def matrix2 (op : Operation α) (params : List α) : Outcome α (Mat2 α) := do
  (← op.matrix params).toMat2

def matrix4 (op : Operation α) (params : List α) : Outcome α (Mat4 α) := do
  (← op.matrix params).toMat4

/-- The operation and parameters of the adjoint. -/
def inverse (op : Operation α) (params : List α) : Outcome α (Operation α × List α) :=
  match op with
  | standard g =>
      if params.length ≠ g.angles then .error (angleCount g.name params.length g.angles)
      else
        match g.inverse? params with
        | some (g', params') => .ok (standard g', params')
        | none => .error (Cause.within (.subject g.name) .noInverse)
  | undefined _ => .error op.unknown
  | family f =>
      match params with
      | [theta] =>
          match f.inverseAngle with
          | none => .ok (op, [-theta])
          | some invert => .ok (op, [invert theta])
      | _ => .error (angleCount f.label params.length 1)
  | custom c => (c.inverseAngles params).map fun params' => (op, params')

end Operation

end Entangle.Gate
