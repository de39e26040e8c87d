import Entangle.Circuit.Sequence
import Entangle.Euler.Angles

/-!
# Sequences for one-qubit unitaries

A one-qubit unitary as a sequence over a gate set, global phase included. Angles are brought into
`[-π, π]`; a rotation changes sign with each whole turn, which the phase takes up. With
simplification on, rotations within the tolerance of zero are left out and shorter forms are used
for a polar angle near zero or a right angle.
-/

namespace Entangle.Euler

open Circuit (Sequence)
open Gate (Standard)

variable {α : Type} [Scalar α]

structure Options (α : Type) where
  qubit : Int
  simplify : Bool
  atol : α

namespace Options

def default : Options α := ⟨0, true, 1e-12⟩

def withQubit (o : Options α) (qubit : Int) : Outcome α (Options α) :=
  if qubit < 0 then .error (.rejected .eulerQubit) else .ok { o with qubit := qubit }

def withSimplify (o : Options α) (simplify : Bool) : Options α := { o with simplify := simplify }

def withAtol (o : Options α) (atol : α) : Outcome α (Options α) :=
  if Scalar.isTolerance atol then .ok { o with atol := atol }
  else .error (.rejected .eulerTolerance)

/-- An angle that simplification leaves out. -/
def drops (o : Options α) (angle : α) : Bool := o.simplify && decide (Scalar.abs angle < o.atol)

/-- A gate at the end of the sequence, on the qubit of the options. -/
def emit (o : Options α) (s : Sequence α) (g : Standard) (params : List α) : Sequence α :=
  s.append (.standard g) params [o.qubit]

end Options

/-- A rotation about a Pauli matrix. -/
def rotation (o : Options α) (g : Standard) (angle : α) (s : Sequence α) : Sequence α :=
  let (wrapped, turns) := Scalar.wrapAngle angle
  let s := s.addPhase (Scalar.pi * turns)
  if o.drops wrapped then s else o.emit s g [wrapped]

/-- An outer rotation by `λ`, a middle one by `θ` and an outer one by `φ`. -/
def threeRotations (o : Options α) (outer middle : Standard) (a : Angles α) : Sequence α :=
  let s : Sequence α := .empty (0 + a.phase)
  if o.drops a.theta then rotation o outer (a.phi + a.lambda) s
  else rotation o outer a.phi (rotation o middle a.theta (rotation o outer a.lambda s))

/-- Which of the three gates with up to three angles the gate set has. -/
inductive Generic where
  /-- one gate with three angles -/
  | u3
  | u
  /-- gates with one, two or three angles, as few as suffice -/
  | fewest
deriving DecidableEq

/-- One gate with three angles, or a gate with fewer angles where the set has one. -/
def oneGate (o : Options α) (kind : Generic) (a : Angles α) : Sequence α :=
  let s : Sequence α := .empty (0 + (a.phase - (a.phi + a.lambda) / 2))
  let sum := (Scalar.wrapAngle (a.phi + a.lambda)).1
  let phi := (Scalar.wrapAngle a.phi).1
  let lambda := (Scalar.wrapAngle a.lambda).1
  if kind = .fewest ∧ o.drops a.theta then
    if o.drops sum then s else o.emit s .u1 [sum]
  else if kind = .fewest ∧ o.drops (a.theta - Scalar.halfPi) then o.emit s .u2 [phi, lambda]
  else if o.drops a.theta && o.drops sum then s
  else if kind = .u then o.emit s .u [a.theta, phi, lambda]
  else o.emit s .u3 [a.theta, phi, lambda]

/-- The gates of a set that is built on the square root of `X`. -/
structure RootX where
  /-- the rotation about `Z`: by half angles (`rz`), or by a phase on one state -/
  aboutZ : Standard
  /-- whether that gate is a phase on one state -/
  isPhase : Bool
  /-- whether the square root is a rotation about `X` by a right angle -/
  rotates : Bool
  /-- whether `X` itself is in the set -/
  hasX : Bool

def RootX.zsx : RootX := ⟨.rz, false, false, false⟩

def RootX.zsxx : RootX := ⟨.rz, false, false, true⟩

def RootX.psx : RootX := ⟨.p, true, false, false⟩

def RootX.u1x : RootX := ⟨.u1, true, true, false⟩

def RootX.turnZ (k : RootX) (o : Options α) (angle : α) (s : Sequence α) : Sequence α :=
  let (wrapped, turns) := Scalar.wrapAngle angle
  let s := s.addPhase (Scalar.pi * turns)
  if o.drops wrapped then s
  else
    let s := if k.isPhase then s.subPhase (wrapped / 2) else s
    o.emit s k.aboutZ [wrapped]

def RootX.root (k : RootX) (o : Options α) (s : Sequence α) : Sequence α :=
  if k.rotates then o.emit (s.addPhase Scalar.quarterPi) .rx [Scalar.halfPi] else o.emit s .sx []

/-- Rotations about `Z` around none, one or two square roots of `X`. -/
def rootSequence (o : Options α) (k : RootX) (a : Angles α) : Sequence α :=
  let s : Sequence α := .empty (0 + a.phase)
  if o.drops a.theta then k.turnZ o (a.phi + a.lambda) s
  else if o.drops (a.theta - Scalar.halfPi) then
    let s := k.turnZ o (a.lambda - Scalar.halfPi) (s.subPhase Scalar.quarterPi)
    k.turnZ o (a.phi + Scalar.halfPi) (k.root o s)
  else
    let s := k.turnZ o a.lambda (s.subPhase Scalar.halfPi)
    let (middle, turns) := Scalar.wrapAngle (a.theta - Scalar.pi)
    let s :=
      if k.hasX && o.drops middle then o.emit (s.addPhase (Scalar.pi * turns)) .x []
      else k.root o (k.turnZ o (a.theta - Scalar.pi) (k.root o s))
    k.turnZ o (a.phi + Scalar.pi) s

/-- Two half turns about axes of the equator, which make a rotation about `Z`, and a rotation by `θ`
about an axis of the equator. -/
def equatorial (o : Options α) (a : Angles α) : Sequence α :=
  let s : Sequence α := .empty (0 + (a.phase + Scalar.pi))
  let (sum, turns) := Scalar.wrapAngle (a.phi + a.lambda)
  let s :=
    if o.drops sum then s.addPhase (Scalar.pi * (turns + 1))
    else
      let half := (Scalar.wrapAngle ((a.phi + a.lambda) / 2)).1
      o.emit (o.emit s .r [Scalar.pi, 0]) .r [Scalar.pi, half]
  if o.drops a.theta then s
  else o.emit s .r [a.theta, (Scalar.wrapAngle (Scalar.halfPi + a.phi)).1]

/-- The sequence over a gate set, for a finite matrix. -/
def emission (o : Options α) (u : Mat2 α) : Basis → Sequence α
  | .zyz => threeRotations o .rz .ry (.zyz u)
  | .zxz => threeRotations o .rz .rx (.zxz u)
  | .xyx => threeRotations o .rx .ry (.xyx u)
  | .xzx => threeRotations o .rx .rz (.xzx u)
  | .u3 => oneGate o .u3 (.zyz u)
  | .u => oneGate o .u (.zyz u)
  | .u321 => oneGate o .fewest (.zyz u)
  | .zsx => rootSequence o .zsx (.zyz u)
  | .zsxx => rootSequence o .zsxx (.zyz u)
  | .psx => rootSequence o .psx (.zyz u)
  | .u1x => rootSequence o .u1x (.zyz u)
  | .rr => equatorial o (.zyz u)

def decompose (u : Mat2 α) (basis : Basis) (o : Options α) : Outcome α (Sequence α) :=
  if u.isFinite then .ok (emission o u basis) else .error (.plain .nonFiniteRotation)

/-- The sequence over the gate set with a given number. -/
def decomposeNumbered (u : Mat2 α) (number : UInt8) (o : Options α) : Outcome α (Sequence α) :=
  if u.isFinite then (Basis.ofNumber number).map (emission o u)
  else .error (.plain .nonFiniteRotation)

end Entangle.Euler
