import Entangle.Matrix.Mat4

/-!
# The magic basis

Conjugation by the magic basis turns products of one-qubit unitaries into rotations of four-space, and
the canonical interaction `exp(i(a·XX + b·YY + c·ZZ))` into a diagonal matrix. Beside the basis stand
the interaction itself, its traces, and the invariants of a matrix under one-qubit operations.
-/

namespace Entangle.Weyl

open Cx (cis ofReal)

variable {α : Type} [Scalar α]

/-- The magic basis, each column of length `√2`. -/
def magic : Mat4 α :=
  .of #v[1, ⟨0, 1⟩, 0, 0] #v[0, 0, ⟨0, 1⟩, 1] #v[0, 0, ⟨0, 1⟩, ⟨-1, 0⟩] #v[1, ⟨0, -1⟩, 0, 0]

def magicInverse : Mat4 α :=
  .of #v[⟨0.5, 0⟩, 0, 0, ⟨0.5, 0⟩] #v[⟨0, -0.5⟩, 0, 0, ⟨0, 0.5⟩]
    #v[0, ⟨0, -0.5⟩, ⟨0, -0.5⟩, 0] #v[0, ⟨0.5, 0⟩, ⟨-0.5, 0⟩, 0]

/-- A magic basis with columns of length one. -/
def magicUnitary : Mat4 α :=
  let h : α := Scalar.sqrtHalf
  .of #v[⟨h, 0⟩, 0, 0, ⟨0, h⟩] #v[0, ⟨0, h⟩, ⟨h, 0⟩, 0] #v[0, ⟨0, h⟩, ⟨-h, 0⟩, 0]
    #v[⟨h, 0⟩, 0, 0, ⟨0, -h⟩]

/-- The matrix in the magic basis. -/
def fromMagic (u : Mat4 α) : Mat4 α := magicInverse * u * magic

/-- The matrix that has a given form in the magic basis. -/
def intoMagic (u : Mat4 α) : Mat4 α := magic * u * magicInverse

/-- `i·X` -/
def ipx : Mat2 α := .of 0 ⟨0, 1⟩ ⟨0, 1⟩ 0

/-- `i·Y` -/
def ipy : Mat2 α := .of 0 1 ⟨-1, 0⟩ 0

/-- `i·Z` -/
def ipz : Mat2 α := .of ⟨0, 1⟩ 0 0 ⟨0, -1⟩

/-- The canonical interaction `exp(i(a·XX + b·YY + c·ZZ))`. -/
def interaction (a b c : α) : Mat4 α :=
  let plus := cis c
  let minus := cis (-c)
  let d0 := plus * ofReal (Scalar.cos (a - b))
  let o0 := Cx.i * plus * ofReal (Scalar.sin (a - b))
  let d1 := minus * ofReal (Scalar.cos (a + b))
  let o1 := Cx.i * minus * ofReal (Scalar.sin (a + b))
  .of #v[d0, 0, 0, o0] #v[0, d1, o1, 0] #v[0, o1, d1, 0] #v[o0, 0, 0, d0]

/-- The average gate fidelity of two unitaries with a given trace of one's adjoint with the other. -/
def traceFidelity (tr : Cx α) : α :=
  let m := tr.abs
  (4 + m * m) / 20

/-- The trace of one canonical interaction's adjoint with another, by the differences of their
angles. -/
def canonicalTrace (da db dc : α) : Cx α :=
  4 * ⟨Scalar.cos da * Scalar.cos db * Scalar.cos dc, Scalar.sin da * Scalar.sin db * Scalar.sin dc⟩

/-- The angle `x` for which the interaction `(x, x, x)` is closest to `(a, b, c)`, to fourth order. -/
def closestPartialSwap (a b c : α) : α :=
  let m := (a + b + c) / 3
  let am := a - m
  let bm := b - m
  let cm := c - m
  let ab := a - b
  let bc := b - c
  let ca := c - a
  m + am * bm * cm * (6 + ab * ab + bc * bc + ca * ca) / 18

/-- The invariants of a matrix under one-qubit operations on both sides. -/
structure Invariants (α : Type) where
  g1re : α
  g1im : α
  g2 : α

namespace Invariants

def ofMatrix (u : Mat4 α) : Invariants α :=
  let ub := magicUnitary.dagger * u * magicUnitary
  let det := Mat4.det ub
  let m := ub.transpose * ub
  let tr := Mat4.trace m
  let square := tr * tr
  let g1 := square / (16 * det)
  let g2 := (square - Mat4.trace (m * m)) / (4 * det)
  ⟨g1.re + 0, g1.im + 0, g2.re + 0⟩

/-- The product of a function's values at the three angles. -/
def productOver (a b c : α) (f : α → α) : α := 1 * f a * f b * f c

def ofCoordinates (a b c : α) : Invariants α :=
  let square (x : α) : α := x * x
  let cos2 := productOver a b c fun w => square (Scalar.cos (2 * w))
  let sin2 := productOver a b c fun w => square (Scalar.sin (2 * w))
  let sin4 := productOver a b c fun w => Scalar.sin (4 * w)
  let cos4 := productOver a b c fun w => Scalar.cos (4 * w)
  ⟨cos2 - sin2 + 0, sin4 / 4 + 0, 4 * cos2 - 4 * sin2 - cos4 + 0⟩

def toList (g : Invariants α) : List α := [g.g1re, g.g1im, g.g2]

end Invariants

/-- No invariant of the two matrices differs by more than the tolerance. -/
def locallyEquivalent (u v : Mat4 α) (atol : α) : Bool :=
  let gu := Invariants.ofMatrix u
  let gv := Invariants.ofMatrix v
  let differ (x y : α) : Bool := decide (atol < Scalar.abs (x - y))
  !(differ gu.g1re gv.g1re || differ gu.g1im gv.g1im || differ gu.g2 gv.g2)

end Entangle.Weyl
