import Entangle.Synthesis.Pulse

/-!
# Synthesis

The circuit of a two-qubit unitary over an entangling gate: canonical form, count of entangling gates,
corrections, and the sequence that interleaves them.
-/

namespace Entangle.Synthesis

open Circuit (Sequence)
open Weyl (Decomposition)

variable {α : Type} [Scalar α]

namespace Decomposer

/-- The layers with an entangling gate between each two. -/
def interleave (d : Decomposer α) : List (Layer α) → Sequence α → Outcome α (Sequence α)
  | [], s => .ok s
  | [layer], s => d.appendLayer s layer
  | layer :: next :: rest, s => do
      let s ← d.appendLayer s layer
      d.interleave (next :: rest) (s.append d.gate d.params [0, 1])

/-- The phase that the sequence of `n` entangling gates starts with. -/
def startPhase (d : Decomposer α) (n : Fin 4) (target : Decomposition α) : α :=
  let phase := target.phase - Scalar.ofNat n * d.basis.phase
  if n = 2 then phase + Scalar.pi else phase

def generic (d : Decomposer α) (n : Fin 4) (layers : List (Layer α)) (target : Decomposition α) :
    Outcome α (Sequence α) :=
  d.interleave layers (.empty (d.startPhase n target))

/-- The count of entangling gates for a target. -/
def countFor (d : Decomposer α) (target : Decomposition α) (r : Request α) : Fin 4 :=
  r.uses.getD (bestCount (d.tracesFor target) (d.effectiveFidelity r))

/-- The circuit of a target with a given count of entangling gates. -/
def realize (d : Decomposer α) (n : Fin 4) (target : Decomposition α) : Outcome α (Sequence α) :=
  let layers := d.corrections n target
  if d.options.pulse = .off then d.generic n layers target
  else
    match d.pulse n layers target with
    | .ok s => .ok s
    | .error (some fault) => .error fault
    | .error none => d.generic n layers target

def synthesize (d : Decomposer α) (u : Mat4 α) (r : Request α) : Outcome α (Sequence α) :=
  Outcome.step "Synthesize" do
    let target ← Decomposition.ofUnitary u .default
    d.realize (d.countFor target r) target

end Decomposer

end Entangle.Synthesis
