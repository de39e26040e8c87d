import Entangle.Matrix.Mat4
import Entangle.Gate.Standard

/-!
# Matrices of the standard gates

Closed forms. A rotation about a Pauli matrix `P`, or a product of two, by an angle `θ` is
`exp(-iθP/2)`; the first qubit of a two-qubit gate is the least significant bit of an index.
-/

namespace Entangle.Gate

open Cx (cis ofReal)

variable {α : Type} [Scalar α]

def hMatrix : Mat2 α :=
  .of (ofReal Scalar.sqrtHalf) (ofReal Scalar.sqrtHalf)
    (ofReal Scalar.sqrtHalf) (ofReal (-Scalar.sqrtHalf))

def xMatrix : Mat2 α := .of 0 1 1 0

def yMatrix : Mat2 α := .of 0 ⟨0, -1⟩ ⟨0, 1⟩ 0

def zMatrix : Mat2 α := .of 1 0 0 ⟨-1, 0⟩

def sMatrix : Mat2 α := .of 1 0 0 ⟨0, 1⟩

def sdgMatrix : Mat2 α := .of 1 0 0 ⟨0, -1⟩

def tMatrix : Mat2 α := .of 1 0 0 ⟨Scalar.sqrtHalf, Scalar.sqrtHalf⟩

def tdgMatrix : Mat2 α := .of 1 0 0 ⟨Scalar.sqrtHalf, -Scalar.sqrtHalf⟩

def sxMatrix : Mat2 α := .of ⟨0.5, 0.5⟩ ⟨0.5, -0.5⟩ ⟨0.5, -0.5⟩ ⟨0.5, 0.5⟩

def sxdgMatrix : Mat2 α := .of ⟨0.5, -0.5⟩ ⟨0.5, 0.5⟩ ⟨0.5, 0.5⟩ ⟨0.5, -0.5⟩

def rxMatrix (theta : α) : Mat2 α :=
  let c := Scalar.cos (theta / 2)
  let s := Scalar.sin (theta / 2)
  .of ⟨c, 0⟩ ⟨0, -s⟩ ⟨0, -s⟩ ⟨c, 0⟩

def ryMatrix (theta : α) : Mat2 α :=
  let c := Scalar.cos (theta / 2)
  let s := Scalar.sin (theta / 2)
  .of ⟨c, 0⟩ ⟨-s, 0⟩ ⟨s, 0⟩ ⟨c, 0⟩

def rzMatrix (theta : α) : Mat2 α := .of (cis (-theta / 2)) 0 0 (cis (theta / 2))

def phaseMatrix (lambda : α) : Mat2 α := .of 1 0 0 (cis lambda)

def u3Matrix (theta phi lambda : α) : Mat2 α :=
  let c := ofReal (Scalar.cos (theta / 2))
  let s := ofReal (Scalar.sin (theta / 2))
  .of c (-cis lambda * s) (cis phi * s) (cis (phi + lambda) * c)

/-- The rotation about an axis of the equator. -/
def rMatrix (theta phi : α) : Mat2 α :=
  let c : Cx α := ⟨Scalar.cos (theta / 2), 0⟩
  let s : Cx α := ⟨0, -Scalar.sin (theta / 2)⟩
  .of c (s * cis (-phi)) (s * cis phi) c

def cxMatrix : Mat4 α := .of #v[1, 0, 0, 0] #v[0, 0, 0, 1] #v[0, 0, 1, 0] #v[0, 1, 0, 0]

def cyMatrix : Mat4 α := .of #v[1, 0, 0, 0] #v[0, 0, 0, ⟨0, -1⟩] #v[0, 0, 1, 0] #v[0, ⟨0, 1⟩, 0, 0]

def czMatrix : Mat4 α := .of #v[1, 0, 0, 0] #v[0, 1, 0, 0] #v[0, 0, 1, 0] #v[0, 0, 0, ⟨-1, 0⟩]

def swapMatrix : Mat4 α := .of #v[1, 0, 0, 0] #v[0, 0, 1, 0] #v[0, 1, 0, 0] #v[0, 0, 0, 1]

def iswapMatrix : Mat4 α :=
  .of #v[1, 0, 0, 0] #v[0, 0, ⟨0, 1⟩, 0] #v[0, ⟨0, 1⟩, 0, 0] #v[0, 0, 0, 1]

def rxxMatrix (theta : α) : Mat4 α :=
  let c : Cx α := ⟨Scalar.cos (theta / 2), 0⟩
  let s : Cx α := ⟨0, -Scalar.sin (theta / 2)⟩
  .of #v[c, 0, 0, s] #v[0, c, s, 0] #v[0, s, c, 0] #v[s, 0, 0, c]

def ryyMatrix (theta : α) : Mat4 α :=
  let c : Cx α := ⟨Scalar.cos (theta / 2), 0⟩
  let s : Cx α := ⟨0, Scalar.sin (theta / 2)⟩
  .of #v[c, 0, 0, s] #v[0, c, -s, 0] #v[0, -s, c, 0] #v[s, 0, 0, c]

def rzzMatrix (theta : α) : Mat4 α :=
  let m := cis (-theta / 2)
  let p := cis (theta / 2)
  .diag m p p m

/-- `Z` on qubit 0 and `X` on qubit 1. -/
def rzxMatrix (theta : α) : Mat4 α :=
  let c : Cx α := ⟨Scalar.cos (theta / 2), 0⟩
  let s : Cx α := ⟨0, Scalar.sin (theta / 2)⟩
  .of #v[c, 0, -s, 0] #v[0, c, 0, s] #v[-s, 0, c, 0] #v[0, s, 0, c]

def cphaseMatrix (lambda : α) : Mat4 α := .diag 1 1 1 (cis lambda)

/-- The gate on qubit 1 under the control of qubit 0. -/
def controlledMatrix (u : Mat2 α) : Mat4 α :=
  .of #v[1, 0, 0, 0] #v[0, u 0 0, 0, u 0 1] #v[0, 0, 1, 0] #v[0, u 1 0, 0, u 1 1]

/-- The matrix of a one- or two-qubit gate. -/
inductive GateMatrix (α : Type) where
  | one (m : Mat2 α)
  | two (m : Mat4 α)

/-- The matrix of a standard gate at its angles, if there are as many as it takes. -/
def Standard.matrix? : Standard → List α → Option (GateMatrix α)
  | .id, [] => some (.one Square.identity)
  | .h, [] => some (.one hMatrix)
  | .x, [] => some (.one xMatrix)
  | .y, [] => some (.one yMatrix)
  | .z, [] => some (.one zMatrix)
  | .s, [] => some (.one sMatrix)
  | .sdg, [] => some (.one sdgMatrix)
  | .t, [] => some (.one tMatrix)
  | .tdg, [] => some (.one tdgMatrix)
  | .sx, [] => some (.one sxMatrix)
  | .sxdg, [] => some (.one sxdgMatrix)
  | .rx, [a] => some (.one (rxMatrix a))
  | .ry, [a] => some (.one (ryMatrix a))
  | .rz, [a] => some (.one (rzMatrix a))
  | .p, [a] => some (.one (phaseMatrix a))
  | .u1, [a] => some (.one (phaseMatrix a))
  | .u2, [a, b] => some (.one (u3Matrix Scalar.halfPi a b))
  | .u3, [a, b, c] => some (.one (u3Matrix a b c))
  | .u, [a, b, c] => some (.one (u3Matrix a b c))
  | .r, [a, b] => some (.one (rMatrix a b))
  | .cx, [] => some (.two cxMatrix)
  | .cy, [] => some (.two cyMatrix)
  | .cz, [] => some (.two czMatrix)
  | .swap, [] => some (.two swapMatrix)
  | .iswap, [] => some (.two iswapMatrix)
  | .rxx, [a] => some (.two (rxxMatrix a))
  | .ryy, [a] => some (.two (ryyMatrix a))
  | .rzz, [a] => some (.two (rzzMatrix a))
  | .rzx, [a] => some (.two (rzxMatrix a))
  | .cp, [a] => some (.two (cphaseMatrix a))
  | .crx, [a] => some (.two (controlledMatrix (rxMatrix a)))
  | .cry, [a] => some (.two (controlledMatrix (ryMatrix a)))
  | .crz, [a] => some (.two (controlledMatrix (rzMatrix a)))
  | _, _ => none

/-- The gate and angles of the adjoint, if the set has one and the angles are as many as the gate
takes. -/
def Standard.inverse? : Standard → List α → Option (Standard × List α)
  | .id, [] => some (.id, [])
  | .h, [] => some (.h, [])
  | .x, [] => some (.x, [])
  | .y, [] => some (.y, [])
  | .z, [] => some (.z, [])
  | .s, [] => some (.sdg, [])
  | .sdg, [] => some (.s, [])
  | .t, [] => some (.tdg, [])
  | .tdg, [] => some (.t, [])
  | .sx, [] => some (.sxdg, [])
  | .sxdg, [] => some (.sx, [])
  | .cx, [] => some (.cx, [])
  | .cy, [] => some (.cy, [])
  | .cz, [] => some (.cz, [])
  | .swap, [] => some (.swap, [])
  | .u2, [a, b] => some (.u3, [-Scalar.halfPi, -b, -a])
  | .u3, [a, b, c] => some (.u3, [-a, -c, -b])
  | .u, [a, b, c] => some (.u, [-a, -c, -b])
  | .r, [a, b] => some (.r, [-a, b])
  | g, [a] => if g.angles = 1 then some (g, [-a]) else none
  | _, _ => none

end Entangle.Gate
