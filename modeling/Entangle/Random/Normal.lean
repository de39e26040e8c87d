import Entangle.Random.Source
import Entangle.Random.CoarseTable
import Entangle.Random.FineTable

/-!
# Normal variates

Rejection sampling from the normal density, cut into layers of equal area. A draw picks a layer and a
point in its width; most points are accepted at once, the others by comparing heights, and the base
layer has a tail of its own. Rejections are bounded by a count that no stream reaches.
-/

namespace Entangle.Random

/-- More rejections in a row than a stream shows. -/
def patience : Nat := 10000

/-- The double with given bits of fraction in the binade that begins at `2^(exponent - 1023)`. -/
def ofFraction (exponent fraction : UInt64) : Float := Float.ofBits (fraction ||| (exponent <<< 52))

namespace Coarse

variable {σ : Type} [Source σ]

/-- A uniform number of `[0, 1)` from the lower 53 bits of a word. -/
def unit : Draw σ Float := do
  let u ← word
  return (u &&& 0x1FFFFFFFFFFFFF).toFloat / 9007199254740992

def sampleTail : Nat → Draw σ Float
  | 0 => pure 0
  | budget + 1 => do
      let x := -Float.log (← unit) * (1 / tail)
      let y := -Float.log (← unit)
      if y + y ≥ x * x then return x else sampleTail budget

def sample : Nat → Draw σ Float
  | 0 => pure 0
  | budget + 1 => do
      let u ← word
      let j : Int32 := u.toUInt32.toInt32
      let i := ((u >>> 32) &&& 0x7F).toNat
      let x := j.toFloat * (widths.getD i 0).toFloat
      let magnitude : UInt32 := if j < 0 then (-j).toUInt32 else j.toUInt32
      if magnitude < acceptBelow.getD i 0 then return x
      else if i = 0 then
        let far ← sampleTail patience
        return if 0 < j then tail + far else -tail - far
      else
        let height := heights.getD i 0
        let above := heights.getD (i - 1) 0
        let r ← unit
        if height + r.toFloat32 * (above - height) < (Float.exp (-0.5 * x * x)).toFloat32 then return x
        else sample budget

def normal : Draw σ Float := sample patience

end Coarse

namespace Fine

variable {σ : Type} [Source σ]

/-- A uniform number of `[0, 1)`. -/
def unit : Draw σ Float := do
  let u ← word
  return (u >>> 11).toFloat * (1 / 9007199254740992)

/-- A uniform number of `(0, 1)`. -/
def openUnit : Draw σ Float := do
  let u ← word
  return ofFraction 1023 (u >>> 12) - (1 - 1 / 9007199254740992)

/-- The point of the tail on the side of `u`. -/
def sampleTail (u : Float) : Nat → Draw σ Float
  | 0 => pure 0
  | budget + 1 => do
      let x := Float.log (← openUnit) / tail
      let y := Float.log (← openUnit)
      if -2 * y < x * x then sampleTail u budget
      else return if u < 0 then x - tail else tail - x

def sample : Nat → Draw σ Float
  | 0 => pure 0
  | budget + 1 => do
      let b ← word
      let i := (b &&& 0xFF).toNat
      let u := ofFraction 1024 (b >>> 12) - 3
      let x := u * edges.getD i 0
      if x.abs < edges.getD (i + 1) 0 then return x
      else if i = 0 then sampleTail u patience
      else
        let height := densities.getD i 0
        let above := densities.getD (i + 1) 0
        let r ← unit
        if above + (height - above) * r < Float.exp (-x * x / 2) then return x
        else sample budget

def normal : Draw σ Float := sample patience

end Fine

end Entangle.Random
