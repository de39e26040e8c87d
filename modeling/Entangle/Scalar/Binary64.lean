import Entangle.Scalar

/-!
# Doubles as scalars

The machine's double-precision numbers, with the operations that the compiler does not provide:
the sign copy and the exact remainder work on the bits, the hypotenuse scales by its longer side.
-/

namespace Entangle.Binary64

def signBit (x : Float) : Bool := x.toBits >>> 63 == 1

def copysign (x y : Float) : Float :=
  Float.ofBits ((x.toBits &&& 0x7FFFFFFFFFFFFFFF) ||| (y.toBits &&& 0x8000000000000000))

/-- The weight of the leading bit of a significand: `2^52`. -/
def leadingBit : Nat := 0x10000000000000

/-- The value `significand · 2^exponent` of the magnitude of a finite double. -/
structure Parts where
  significand : Nat
  exponent : Int
deriving Repr, DecidableEq

def Parts.ofBits (bits : UInt64) : Parts :=
  let biased := ((bits >>> 52) &&& 0x7FF).toNat
  let fraction := (bits &&& 0xFFFFFFFFFFFFF).toNat
  if biased = 0 then ⟨fraction, -1074⟩ else ⟨fraction + leadingBit, (biased : Int) - 1075⟩

def parts (x : Float) : Parts := .ofBits x.toBits

def hypot (x y : Float) : Float :=
  let p := x.abs
  let q := y.abs
  if p.isInf || q.isInf then 1.0 / 0.0
  else if p.isNaN || q.isNaN then 0.0 / 0.0
  else
    let (long, short) := if p < q then (q, p) else (p, q)
    if long == 0 then 0 else
      let ratio := short / long
      long * (1 + ratio * ratio).sqrt

/-- The remainder of the magnitudes is exact: both are whole multiples of the finer unit. -/
def fmod (x y : Float) : Float :=
  if y == 0 || x.isInf || x.isNaN || y.isNaN then 0.0 / 0.0
  else if y.isInf || x.abs < y.abs then x
  else
    let a := parts x
    let b := parts y
    let unit := min a.exponent b.exponent
    let wide (p : Parts) : Nat := p.significand * Nat.pow 2 (p.exponent - unit).toNat
    copysign ((Float.ofNat (wide a % wide b)).scaleB unit) x

/-- Fifty digits of π, as a multiple of `10^-49`. -/
def piDigits : Nat := 31415926535897932384626433832795028841971693993751

def piTimes (num den : Nat) : Float := Float.ofScientific (piDigits * num / den) true 49

instance instScalar : Scalar Float where
  decLt := inferInstance
  decLe := inferInstance
  ofNat := Float.ofNat
  ofScientific := Float.ofScientific
  ofFloat := id
  piTimes := piTimes
  abs := Float.abs
  sqrt := Float.sqrt
  sin := Float.sin
  cos := Float.cos
  atan2 := Float.atan2
  hypot := hypot
  pow := Float.pow
  copysign := copysign
  fmod := fmod
  round := Float.round

end Entangle.Binary64
