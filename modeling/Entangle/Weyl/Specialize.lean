import Entangle.Euler.Angles
import Entangle.Gate.Matrices
import Entangle.Weyl.Chamber
import Entangle.Weyl.Class

/-!
# Symmetric forms

Fitting a canonical form to a symmetry class: the angles move to the nearest point of the class, and
the rotations that commute with the interaction there move from the inner to the outer factors.
-/

namespace Entangle.Weyl

open Euler (Angles)
open Gate (rxMatrix ryMatrix rzMatrix)

variable {α : Type} [Scalar α]

/-- The gate set whose rotations match the factors that a class fixes. -/
def Class.basis : Class → Euler.Basis
  | .controlled | .abb | .abmb => .xyx
  | _ => .zyz

/-- The point of a class is within the requested fidelity of the form. -/
def Form.isNear (f : Form α) (fidelity a b c : α) : Bool :=
  decide (fidelity ≤ traceFidelity (canonicalTrace (f.a - a) (f.b - b) (f.c - c)))

/-- The first class, the most symmetric first, with a point within the requested fidelity. -/
def Form.nearestClass (f : Form α) (fidelity : α) : Class :=
  let near := f.isNear fidelity
  let quarter : α := Scalar.quarterPi
  let aligned := closestPartialSwap f.a f.b f.c
  let flipped := closestPartialSwap f.a f.b (-f.c)
  if near 0 0 0 then .identity
  else if near quarter quarter quarter || near quarter quarter (-quarter) then .swap
  else if near aligned aligned aligned then .partialSwap
  else if near flipped flipped (-flipped) then .partialSwapFlip
  else if near f.a 0 0 then .controlled
  else if near quarter quarter f.c then .mirrorControlled
  else if near ((f.a + f.b) / 2) ((f.a + f.b) / 2) f.c then .aab
  else if near f.a ((f.b + f.c) / 2) ((f.b + f.c) / 2) then .abb
  else if near f.a ((f.b - f.c) / 2) ((f.c - f.b) / 2) then .abmb
  else .general

/-- A form fitted to a class, and the trace of its adjoint with the form it came from. -/
structure Fitted (α : Type) where
  form : Form α
  trace : Cx α

/-- The fitted form with the trace that the differences of the angles give. -/
def Form.fittedTo (f out : Form α) : Fitted α :=
  ⟨out, canonicalTrace (f.a - out.a) (f.b - out.b) (f.c - out.c)⟩

def toIdentity (f : Form α) : Fitted α :=
  f.fittedTo
    { f with
      a := 0, b := 0, c := 0, k1l := f.k1l * f.k2l, k1r := f.k1r * f.k2r
      k2l := Square.identity, k2r := Square.identity }

/-- The swap point with a positive third angle; a form nearer to the other one is turned over. -/
def toSwap (f : Form α) : Fitted α :=
  let quarter : α := Scalar.quarterPi
  if 0 < f.c then
    f.fittedTo
      { f with
        a := quarter, b := quarter, c := quarter, k1l := f.k1l * f.k2r, k1r := f.k1r * f.k2l
        k2l := Square.identity, k2r := Square.identity }
  else
    ⟨{ f with
        a := quarter, b := quarter, c := quarter, phase := f.phase + Scalar.halfPi
        k1l := f.k1l * ipz * f.k2r, k1r := f.k1r * ipz * f.k2l
        k2l := Square.identity, k2r := Square.identity },
      canonicalTrace (Scalar.halfPi - f.a - quarter) (f.b - quarter) (-f.c - quarter)⟩

def toPartialSwap (f : Form α) : Fitted α :=
  let x := closestPartialSwap f.a f.b f.c
  f.fittedTo
    { f with
      a := x, b := x, c := x, k1l := f.k1l * f.k2l, k1r := f.k1r * f.k2l
      k2r := f.k2l.dagger * f.k2r, k2l := Square.identity }

def toPartialSwapFlip (f : Form α) : Fitted α :=
  let x := closestPartialSwap f.a f.b (-f.c)
  f.fittedTo
    { f with
      a := x, b := x, c := -x, k1l := f.k1l * f.k2l, k1r := f.k1r * ipz * f.k2l * ipz
      k2r := ipz * f.k2l.dagger * ipz * f.k2r, k2l := Square.identity }

def toControlled (f : Form α) : Outcome α (Fitted α) := do
  let l ← Angles.ofUnitary f.k2l .xyx
  let r ← Angles.ofUnitary f.k2r .xyx
  return f.fittedTo
    { f with
      b := 0, c := 0, phase := f.phase + (l.phase + r.phase)
      k1l := f.k1l * rxMatrix l.phi, k1r := f.k1r * rxMatrix r.phi
      k2l := ryMatrix l.theta * rxMatrix l.lambda, k2r := ryMatrix r.theta * rxMatrix r.lambda }

/-- The interaction swaps the qubits, so each inner rotation comes out on the other side. -/
def toMirrorControlled (f : Form α) : Outcome α (Fitted α) := do
  let l ← Angles.ofUnitary f.k2l .zyz
  let r ← Angles.ofUnitary f.k2r .zyz
  return f.fittedTo
    { f with
      a := Scalar.quarterPi, b := Scalar.quarterPi, phase := f.phase + (l.phase + r.phase)
      k1l := f.k1l * rzMatrix r.phi, k1r := f.k1r * rzMatrix l.phi
      k2l := ryMatrix l.theta * rzMatrix l.lambda, k2r := ryMatrix r.theta * rzMatrix r.lambda }

def toAab (f : Form α) : Outcome α (Fitted α) := do
  let l ← Angles.ofUnitary f.k2l .zyz
  return f.fittedTo
    { f with
      a := (f.a + f.b) / 2, b := (f.a + f.b) / 2, phase := f.phase + l.phase
      k1l := f.k1l * rzMatrix l.phi, k1r := f.k1r * rzMatrix l.phi
      k2l := ryMatrix l.theta * rzMatrix l.lambda, k2r := rzMatrix (-l.phi) * f.k2r }

def toAbb (f : Form α) : Outcome α (Fitted α) := do
  let l ← Angles.ofUnitary f.k2l .xyx
  return f.fittedTo
    { f with
      b := (f.b + f.c) / 2, c := (f.b + f.c) / 2, phase := f.phase + l.phase
      k1l := f.k1l * rxMatrix l.phi, k1r := f.k1r * rxMatrix l.phi
      k2l := ryMatrix l.theta * rxMatrix l.lambda, k2r := rxMatrix (-l.phi) * f.k2r }

def toAbmb (f : Form α) : Outcome α (Fitted α) := do
  let l ← Angles.ofUnitary f.k2l .xyx
  let b := (f.b - f.c) / 2
  return f.fittedTo
    { f with
      b := b, c := -b, phase := f.phase + l.phase
      k1l := f.k1l * rxMatrix l.phi, k1r := f.k1r * ipz * rxMatrix l.phi * ipz
      k2l := ryMatrix l.theta * rxMatrix l.lambda
      k2r := ipz * rxMatrix (-l.phi) * ipz * f.k2r }

def Form.fit (f : Form α) : Class → Outcome α (Fitted α)
  | .general => .ok (f.fittedTo f)
  | .identity => .ok (toIdentity f)
  | .swap => .ok (toSwap f)
  | .partialSwap => .ok (toPartialSwap f)
  | .partialSwapFlip => .ok (toPartialSwapFlip f)
  | .controlled => toControlled f
  | .mirrorControlled => toMirrorControlled f
  | .aab => toAab f
  | .abb => toAbb f
  | .abmb => toAbmb f

end Entangle.Weyl
