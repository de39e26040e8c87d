/-!
# Random bits

Two generators with 128 bits of state. Drawing is a state transition, so a stream is determined by its
first state. `Permuted` adds a constant at each step and mixes the new state into the output;
`Multiplicative` keeps an odd state and rotates the sum of its halves.
-/

namespace Entangle.Random

/-- 128 bits as two words. -/
structure State where
  hi : UInt64
  lo : UInt64
deriving Repr, DecidableEq

namespace State

def toNat (s : State) : Nat := s.hi.toNat * UInt64.size + s.lo.toNat

/-- The state with a given number, reduced to 128 bits. -/
def ofNat (n : Nat) : State := ⟨(n / UInt64.size).toUInt64, n.toUInt64⟩

end State

/-- The upper word of the full product of two words. -/
def mulHigh (a b : UInt64) : UInt64 := (a.toNat * b.toNat / UInt64.size).toUInt64

def rotateRight64 (x : UInt64) (k : UInt64) : UInt64 := (x >>> k) ||| (x <<< ((64 - k) % 64))

def rotateRight32 (x : UInt32) (k : UInt32) : UInt32 := (x >>> k) ||| (x <<< ((32 - k) % 32))

/-- A generator: a state transition that yields a word. -/
class Source (σ : Type) where
  next : σ → UInt64 × σ

structure Permuted where
  state : State
deriving Repr, DecidableEq

namespace Permuted

def ofSeeds (first second : UInt64) : Permuted := ⟨⟨first, second⟩⟩

def multiplier : Nat := 2549297995355413924 * UInt64.size + 4865540595714422341

def increment : Nat := 6364136223846793005 * UInt64.size + 1442695040888963407

def advance (s : State) : State := .ofNat (s.toNat * multiplier + increment)

/-- The word that a state gives. -/
def mix (s : State) : UInt64 :=
  let a := s.hi ^^^ (s.hi >>> 32)
  let b := a * 0xda942042e4dd58b5
  let c := b ^^^ (b >>> 48)
  c * (s.lo ||| 1)

instance : Source Permuted := ⟨fun g => let s := advance g.state; (mix s, ⟨s⟩)⟩

end Permuted

structure Multiplicative where
  state : State
deriving Repr, DecidableEq

namespace Multiplicative

def multiplierHigh : UInt64 := 0x2360ED051FC65DA4

def multiplierLow : UInt64 := 0x4385DF649FCCF645

/-- One step of the generator that expands a seed. -/
def seedStep (s : UInt64) : UInt64 := s * 6364136223846793005 + 11634580027462260723

/-- The word that a step of the seed's expansion gives. -/
def seedWord (s : UInt64) : UInt64 :=
  let shifted : UInt32 := (((s >>> 18) ^^^ s) >>> 27).toUInt32
  (rotateRight32 shifted (s >>> 59).toUInt32).toUInt64

/-- Four words from the seed, the first in the lowest place, with the lowest bit set. -/
def ofSeed (seed : UInt64) : Multiplicative :=
  let s0 := seedStep seed
  let s1 := seedStep s0
  let s2 := seedStep s1
  let s3 := seedStep s2
  ⟨⟨seedWord s2 ||| (seedWord s3 <<< 32), seedWord s0 ||| (seedWord s1 <<< 32) ||| 1⟩⟩

/-- The product of the state with the multiplier: one full product of words and two that only reach
the upper word. -/
def advance (s : State) : State :=
  ⟨mulHigh s.lo multiplierLow + (s.hi * multiplierLow + s.lo * multiplierHigh), s.lo * multiplierLow⟩

def output (s : State) : UInt64 := rotateRight64 (s.hi ^^^ s.lo) (s.hi >>> 58)

instance : Source Multiplicative := ⟨fun g => let s := advance g.state; (output s, ⟨s⟩)⟩

end Multiplicative

abbrev Draw (σ : Type) := StateM σ

def word {σ : Type} [Source σ] : Draw σ UInt64 := fun s => Source.next s

/-- The result of a draw from a state. -/
def resultFrom {σ β : Type} (start : σ) (draw : Draw σ β) : β := (StateT.run draw start).run.1

/-- The results of `count` draws, in order. -/
def repeated {σ β : Type} (draw : Draw σ β) : Nat → Draw σ (List β)
  | 0 => pure []
  | count + 1 => do
      let x ← draw
      let rest ← repeated draw count
      return x :: rest

end Entangle.Random
