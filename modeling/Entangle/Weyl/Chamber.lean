import Entangle.Weyl.Diagonalize
import Entangle.Weyl.Magic
import Entangle.Weyl.Product

/-!
# Into the chamber

The canonical form `e^{iφ} · (K1L ⊗ K1R) · exp(i(a·XX + b·YY + c·ZZ)) · (K2L ⊗ K2R)` of a two-qubit
unitary. The angles are read off a diagonalisation in the magic basis, put in order, and folded by
quarter turns and Pauli matrices into the chamber `π/4 ≥ a ≥ b ≥ |c|`.
-/

namespace Entangle.Weyl

variable {α : Type} [Scalar α]

/-- A unitary written by three interaction angles, one-qubit factors and a phase. -/
structure Form (α : Type) where
  a : α
  b : α
  c : α
  phase : α
  k1l : Mat2 α
  k1r : Mat2 α
  k2l : Mat2 α
  k2r : Mat2 α

/-- The unitary that a form denotes. -/
def Form.matrix (f : Form α) : Mat4 α :=
  (Mat4.kron f.k1l f.k1r * interaction f.a f.b f.c * Mat4.kron f.k2l f.k2r).scale (Cx.cis f.phase)

/-- The phases of a diagonalisation, the last chosen so that all four add to zero. -/
def halfPhases (values : Vector (Cx α) 4) : Vector α 4 :=
  let d0 := -values[0].arg / 2
  let d1 := -values[1].arg / 2
  let d2 := -values[2].arg / 2
  #v[d0, d1, d2, -(d0 + d1 + d2)]

/-- The angle of an axis, in `[0, 2π]`. -/
def axisAngle (phases : Vector α 4) (k : Fin 3) : α :=
  Scalar.modPositive ((phases[k.castSucc] + phases[3]) / 2) Scalar.tau

/-- The distance of an angle from the nearest multiple of a right angle. -/
def rightAngleDistance (x : α) : α :=
  let rest := Scalar.fmod x Scalar.halfPi
  Scalar.smaller rest (Scalar.halfPi - rest)

/-- The axes in the order second nearest, farthest, nearest to a multiple of a right angle. -/
def axisOrder (distance : Fin 3 → α) : Fin 3 × Fin 3 × Fin 3 :=
  match Jacobi.sortUp (fun i j => decide (distance i < distance j)) [0, 1, 2] with
  | [nearest, middle, farthest] => (middle, farthest, nearest)
  | _ => (1, 2, 0)

/-- The columns of a rotation in a given order, the last one kept. -/
def orderColumns (p : Real4 α) (order : Fin 3 × Fin 3 × Fin 3) : Real4 α :=
  let column : Fin 4 → Fin 4 := fun j => #v[order.1.castSucc, order.2.1.castSucc, order.2.2.castSucc, 3].get j
  Square.ofFn fun i j => p i (column j)

/-- The same axes with the last one reversed where that makes a proper rotation. -/
def properRotation (p : Real4 α) : Real4 α :=
  if Real4.det p < 0 then Square.ofFn fun i j => if j = 3 then -p i j else p i j else p

/-- A form on its way into the chamber, with the number of reflected axes. -/
structure Folding (α : Type) where
  x : α
  y : α
  z : α
  phase : α
  k1l : Mat2 α
  k1r : Mat2 α
  k2l : Mat2 α
  k2r : Mat2 α
  reflections : Nat

namespace Folding

/-- Takes three right angles off the first angle. -/
def turnX (f : Folding α) : Folding α :=
  if Scalar.halfPi < f.x then
    { f with
      x := f.x - Scalar.piTimes 3 2, k1l := f.k1l * ipy, k1r := f.k1r * ipy
      phase := f.phase + Scalar.halfPi }
  else f

def turnY (f : Folding α) : Folding α :=
  if Scalar.halfPi < f.y then
    { f with
      y := f.y - Scalar.piTimes 3 2, k1l := f.k1l * ipx, k1r := f.k1r * ipx
      phase := f.phase + Scalar.halfPi }
  else f

/-- Reflects the first angle in an eighth of a turn. -/
def reflectX (f : Folding α) : Folding α :=
  if Scalar.quarterPi < f.x then
    { f with
      x := Scalar.halfPi - f.x, k1l := f.k1l * ipy, k2r := ipy * f.k2r
      reflections := f.reflections + 1, phase := f.phase - Scalar.halfPi }
  else f

def reflectY (f : Folding α) : Folding α :=
  if Scalar.quarterPi < f.y then
    let reflections := f.reflections + 1
    let phase := f.phase + Scalar.halfPi
    { f with
      y := Scalar.halfPi - f.y, k1l := f.k1l * ipx, k2r := ipx * f.k2r
      reflections := reflections, phase := if reflections = 1 then phase - Scalar.pi else phase }
  else f

def turnZ (f : Folding α) : Folding α :=
  if Scalar.halfPi < f.z then
    let phase := f.phase + Scalar.halfPi
    { f with
      z := f.z - Scalar.piTimes 3 2, k1l := f.k1l * ipz, k1r := f.k1r * ipz
      phase := if f.reflections = 1 then phase - Scalar.pi else phase }
  else f

/-- Reflects the third angle where exactly one of the others was. -/
def reflectZ (f : Folding α) : Folding α :=
  if f.reflections = 1 then
    { f with
      z := Scalar.halfPi - f.z, k1l := f.k1l * ipz, k2r := ipz * f.k2r
      phase := f.phase + Scalar.halfPi }
  else f

/-- Takes a right angle off the third angle where it is past an eighth of a turn. -/
def dropZ (f : Folding α) : Folding α :=
  if Scalar.quarterPi < f.z then
    { f with
      z := f.z - Scalar.halfPi, k1l := f.k1l * ipz, k1r := f.k1r * ipz
      phase := f.phase - Scalar.halfPi }
  else f

def fold (f : Folding α) : Folding α :=
  f.turnX.turnY.reflectX.reflectY.turnZ.reflectZ.dropZ

/-- The form in the chamber: the second angle is the largest. -/
def toForm (f : Folding α) : Form α := ⟨f.y, f.x, f.z, f.phase, f.k1l, f.k1r, f.k2l, f.k2r⟩

end Folding

/-- The phase and the matrix of determinant one, in the magic basis, of a unitary with a given
determinant. -/
def specialUnitary (u : Mat4 α) (det : Cx α) : Mat4 α := fromMagic (u.scale (det.rpow (-0.25)))

/-- The folding that a diagonalisation starts, for a matrix `up` in the magic basis. -/
def startFolding (up : Mat4 α) (d : Diagonalization α) (phase : α) : Outcome α (Folding α) := do
  let phases := halfPhases d.values
  let angle := axisAngle phases
  let order := axisOrder fun k => rightAngleDistance (angle k)
  let (i, j, k) := order
  let p := Real4.complex (properRotation (orderColumns d.rotation order))
  let turned := up * p * Mat4.diag (Cx.cis phases[i.castSucc]) (Cx.cis phases[j.castSucc])
    (Cx.cis phases[k.castSucc]) (Cx.cis phases[3])
  let outer ← Outcome.step "New" (Product.decompose (intoMagic turned))
  let inner ← Outcome.step "New" (Product.decompose (intoMagic p.transpose))
  return ⟨angle i, angle j, angle k, phase + (outer.phase + inner.phase),
    outer.left, outer.right, inner.left, inner.right, 0⟩

/-- The canonical form of a unitary, before any symmetry class is fitted. -/
def canonicalForm (u : Mat4 α) : Outcome α (Form α) :=
  let det := Mat4.det u
  if !u.isFinite || det == 0 then Outcome.step "New" (.error (.plain .nonFiniteTarget))
  else do
    let up := specialUnitary u det
    let d ← diagonalize (up.transpose * up)
    return (← startFolding up d (det.arg / 4)).fold.toForm

end Entangle.Weyl
