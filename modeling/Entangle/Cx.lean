import Entangle.Scalar

/-!
# Complex numbers

Pairs over a scalar type. Products are full products, also when a factor is real; the quotient is
scaled by the larger part of the divisor and, where both parts come out as no number, replaced by
the infinity or zero that the operands call for.
-/

namespace Entangle

open Scalar (isNaN isInf isFinite)

@[ext]
structure Cx (α : Type) where
  re : α
  im : α
deriving Repr

namespace Cx

variable {α : Type} [Scalar α]

def ofReal (x : α) : Cx α := ⟨x, 0⟩

def i : Cx α := ⟨0, 1⟩

instance (n : Nat) : OfNat (Cx α) n := ⟨ofReal (Scalar.ofNat n)⟩

instance : Add (Cx α) := ⟨fun z w => ⟨z.re + w.re, z.im + w.im⟩⟩

instance : Sub (Cx α) := ⟨fun z w => ⟨z.re - w.re, z.im - w.im⟩⟩

instance : Neg (Cx α) := ⟨fun z => ⟨-z.re, -z.im⟩⟩

instance : Mul (Cx α) := ⟨fun z w => ⟨z.re * w.re - z.im * w.im, z.re * w.im + z.im * w.re⟩⟩

instance : BEq (Cx α) := ⟨fun z w => z.re == w.re && z.im == w.im⟩

def conj (z : Cx α) : Cx α := ⟨z.re, -z.im⟩

def abs (z : Cx α) : α := Scalar.hypot z.re z.im

def arg (z : Cx α) : α := Scalar.atan2 z.im z.re

def isFinite (z : Cx α) : Bool := Scalar.isFinite z.re && Scalar.isFinite z.im

/-- A signed one in place of an infinite part and a signed zero in place of a finite one. -/
def unitOfInfinite (x : α) : α := Scalar.copysign (if isInf x then 1 else 0) x

/-- The quotient by the ratio of the divisor's parts, before the repair of lost values. -/
def scaledQuotient (n m : Cx α) : Cx α :=
  if Scalar.abs m.im ≤ Scalar.abs m.re then
    let ratio := m.im / m.re
    let denom := m.re + ratio * m.im
    ⟨(n.re + n.im * ratio) / denom, (n.im - n.re * ratio) / denom⟩
  else
    let ratio := m.re / m.im
    let denom := m.im + ratio * m.re
    ⟨(n.re * ratio + n.im) / denom, (n.im * ratio - n.re) / denom⟩

/-- The quotient where `scaledQuotient` has lost both parts: infinite over a zero divisor or under an
infinite dividend, zero over an infinite divisor. -/
def lostQuotient (n m lost : Cx α) : Cx α :=
  if m == 0 && (!isNaN n.re || !isNaN n.im) then
    let far := Scalar.copysign Scalar.infinity m.re
    ⟨far * n.re, far * n.im⟩
  else if (isInf n.re || isInf n.im) && m.isFinite then
    let a := unitOfInfinite n.re
    let b := unitOfInfinite n.im
    ⟨Scalar.infinity * (a * m.re + b * m.im), Scalar.infinity * (b * m.re - a * m.im)⟩
  else if (isInf m.re || isInf m.im) && n.isFinite then
    let c := unitOfInfinite m.re
    let d := unitOfInfinite m.im
    ⟨0 * (n.re * c + n.im * d), 0 * (n.im * c - n.re * d)⟩
  else lost

instance : Div (Cx α) := ⟨fun n m =>
  let q := scaledQuotient n m
  if isNaN q.re && isNaN q.im then lostQuotient n m q else q⟩

/-- The point of the unit circle at an angle. -/
def cis (angle : α) : Cx α := ⟨Scalar.cos angle, Scalar.sin angle⟩

/-- The power of a complex number to a real exponent. -/
def rpow (z : Cx α) (y : α) : Cx α :=
  if z == 0 then
    if y == 0 then 1 else if y < 0 then ⟨Scalar.infinity, 0⟩ else 0
  else
    let modulus := Scalar.pow z.abs y
    let angle := y * z.arg
    ⟨modulus * Scalar.cos angle, modulus * Scalar.sin angle⟩

/-- The square root off the axes, for parts scaled into the middle of the number range. -/
def scaledSqrt (a b scale : α) (downward : Bool) : Cx α :=
  let modulus := Scalar.hypot a b
  let (t, r) :=
    if 0 < a then
      let t := Scalar.sqrt (0.5 * modulus + 0.5 * a)
      (scale * t, scale * Scalar.abs (0.5 * b / t))
    else
      let r := Scalar.sqrt (0.5 * modulus - 0.5 * a)
      (scale * Scalar.abs (0.5 * b / r), scale * r)
  ⟨t, if downward then -r else r⟩

/-- The principal square root, continuous from above on the negative axis; a zero imaginary part
keeps its sign. -/
def sqrt (z : Cx α) : Cx α :=
  let a := z.re
  let b := z.im
  if b == 0 then
    if a == 0 then ⟨0, b⟩
    else if a < 0 then ⟨0, Scalar.copysign (Scalar.sqrt (-a)) b⟩
    else ⟨Scalar.sqrt a, b⟩
  else if isInf b then ⟨Scalar.infinity, b⟩
  else if a == 0 then
    let r := Scalar.sqrt (0.5 * Scalar.abs b)
    ⟨r, if b < 0 then -r else r⟩
  else if 4 < Scalar.abs a || 4 < Scalar.abs b then
    scaledSqrt (0.25 * a) (0.25 * b) 2 (b < 0)
  else
    scaledSqrt (18014398509481984 * a) (18014398509481984 * b) (1 / 134217728) (b < 0)

/-- Both parts within the tolerance. -/
def isClose (z w : Cx α) (atol : α) : Bool :=
  decide (Scalar.abs (z.re - w.re) ≤ atol) && decide (Scalar.abs (z.im - w.im) ≤ atol)

end Cx

end Entangle
