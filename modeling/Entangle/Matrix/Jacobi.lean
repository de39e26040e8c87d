import Entangle.Fault
import Entangle.Matrix.Mat4

/-!
# Symmetric eigenproblems

Eigenvalues and an orthonormal basis of eigenvectors of a real symmetric matrix by plane rotations.
Each step takes the largest entry off the diagonal, the first of equals in row order, and rotates it
away; a rotation that could not change the diagonal is replaced by clearing the entry. The search ends
when the largest entry is within the tolerance, which is relative to the size of the matrix, or when
the budget of steps is spent.
-/

namespace Entangle.Jacobi

variable {α : Type} [Scalar α]

structure Options (α : Type) where
  tolerance : α
  budget : Nat

def Options.default : Options α := ⟨1e-15, 500⟩

def Options.withTolerance (o : Options α) (tol : α) : Outcome α (Options α) :=
  if Scalar.isTolerance tol then .ok { o with tolerance := tol }
  else .error (.rejected .eigenTolerance)

def Options.withBudget (o : Options α) (budget : Int) : Outcome α (Options α) :=
  if budget ≤ 0 then .error (.rejected .eigenBudget) else .ok { o with budget := budget.toNat }

structure Eigen (α : Type) where
  values : Vector α 4
  /-- column `k` belongs to value `k` -/
  vectors : Real4 α

/-- The positions above the diagonal, in row order. -/
def upper : List (Fin 4 × Fin 4) := [(0, 1), (0, 2), (0, 3), (1, 2), (1, 3), (2, 3)]

/-- The square root of the sum of the squares of all entries. -/
def frobenius (a : Real4 α) : α :=
  Scalar.sqrt (a.toRows.flatten.foldl (fun sum x => sum + x * x) 0)

structure State (α : Type) where
  /-- the matrix in the rotated frame -/
  w : Real4 α
  /-- the rotations so far -/
  q : Real4 α
  /-- the last pivot -/
  p : Fin 4
  r : Fin 4

def State.start (a : Real4 α) : State α :=
  ⟨a, Square.diagonal 0 fun _ => 1, 0, 0⟩

/-- The largest entry above the diagonal and its position; the last pivot where all are zero. -/
def State.pivot (s : State α) : α × Fin 4 × Fin 4 :=
  upper.foldl (fun best (i, j) =>
    let off := Scalar.abs (s.w i j)
    if best.1 < off then (off, i, j) else best) (0, s.p, s.r)

/-- A pivot so small that a hundredfold of it is lost beside both diagonal entries. -/
def isNegligible (app arr apr : α) : Bool :=
  (Scalar.abs app + 100 * Scalar.abs apr == Scalar.abs app) &&
    (Scalar.abs arr + 100 * Scalar.abs apr == Scalar.abs arr)

def clear (w : Real4 α) (p r : Fin 4) : Real4 α :=
  Square.ofFn fun i j => if (i = p ∧ j = r) ∨ (i = r ∧ j = p) then 0 else w i j

/-- Cosine and sine of the rotation that clears the entry `apr`. -/
def angle (app arr apr : α) : α × α :=
  let theta := (arr - app) / (2 * apr)
  let t := Scalar.copysign (1 / (Scalar.abs theta + Scalar.hypot theta 1)) theta
  let c := 1 / Scalar.sqrt (t * t + 1)
  (c, t * c)

def rotateMatrix (w : Real4 α) (p r : Fin 4) (c s : α) : Real4 α :=
  let app := w p p
  let arr := w r r
  let apr := w p r
  let atP (i : Fin 4) : α := c * w i p - s * w i r
  let atR (i : Fin 4) : α := s * w i p + c * w i r
  Square.ofFn fun i j =>
    if (i = p ∧ j = r) ∨ (i = r ∧ j = p) then 0
    else if i = r ∧ j = r then s * s * app + 2 * c * s * apr + c * c * arr
    else if i = p ∧ j = p then c * c * app - 2 * c * s * apr + s * s * arr
    else if j = r then atR i
    else if i = r then atR j
    else if j = p then atP i
    else if i = p then atP j
    else w i j

def rotateFrame (q : Real4 α) (p r : Fin 4) (c s : α) : Real4 α :=
  Square.ofFn fun i j =>
    if j = r then s * q i p + c * q i r
    else if j = p then c * q i p - s * q i r
    else q i j

/-- One step at a given pivot. -/
def State.rotate (s : State α) (p r : Fin 4) : State α :=
  let app := s.w p p
  let arr := s.w r r
  let apr := s.w p r
  if isNegligible app arr apr then ⟨clear s.w p r, s.q, p, r⟩
  else
    let (cosine, sine) := angle app arr apr
    ⟨rotateMatrix s.w p r cosine sine, rotateFrame s.q p r cosine sine, p, r⟩

/-- The state at the end, and whether the largest entry came within the threshold. -/
def iterate (threshold : α) : Nat → State α → State α × Bool
  | 0, s => (s, false)
  | budget + 1, s =>
      let (size, p, r) := s.pivot
      if size ≤ threshold then ({ s with p := p, r := r }, true)
      else iterate threshold budget (s.rotate p r)

/-- The largest entry off the diagonal, for the step that spent the budget. -/
def residue (w : Real4 α) : α :=
  upper.foldl (fun worst (i, j) => Scalar.larger worst (Scalar.abs (w i j))) 0

/-- Puts an element behind all that are not above it, in a list that is sorted downwards. -/
def insertDown {β : Type} (below : β → β → Bool) (x : β) : List β → List β
  | [] => [x]
  | y :: rest => if below x y then y :: insertDown below x rest else x :: y :: rest

/-- Elements in ascending order, equals in the order given. -/
def sortUp {β : Type} (below : β → β → Bool) (xs : List β) : List β :=
  (xs.foldl (fun sorted x => insertDown below x sorted) []).reverse

def sorted (s : State α) : Eigen α :=
  let order := (sortUp (fun i j => decide (s.w i i < s.w j j)) (List.finRange 4)).toArray
  let column (k : Fin 4) : Fin 4 := order.getD k 0
  ⟨Vector.ofFn fun k => s.w (column k) (column k), Square.ofFn fun i k => s.q i (column k)⟩

/-- The first pair of mirrored entries that differ by more than the bound. -/
def asymmetry? (a : Real4 α) (bound : α) : Option (Fin 4 × Fin 4) :=
  upper.find? fun (i, j) => decide (bound < Scalar.abs (a i j - a j i))

def eigen (a : Real4 α) (o : Options α) : Outcome α (Eigen α) :=
  Outcome.step "EigenSym4" <|
    if !a.all Scalar.isFinite then .error (.plain .nonFiniteEntry)
    else
      let scale := frobenius a
      let threshold := o.tolerance * scale
      match asymmetry? a (Scalar.larger threshold (1e-12 * scale)) with
      | some (i, j) => .error (Cause.within (.asymmetry i j (a i j) (a j i)) .asymmetric)
      | none =>
          let (s, converged) := iterate threshold o.budget (.start a)
          if !converged && decide (threshold < residue s.w) then .error (.plain .eigenFailed)
          else .ok (sorted s)

end Entangle.Jacobi
