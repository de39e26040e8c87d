import Entangle.Command.Config
import Entangle.Command.Target
import Entangle.Family.Decomposer
import Entangle.Synthesis.Synthesize

/-!
# Reports

What a run finds out about its target: the canonical form, and a circuit over the basis gate or the gate
family of the configuration, unless only the canonical form is asked for.
-/

namespace Entangle.Command

open Circuit (Sequence)

/-- The canonical form in numbers. -/
structure WeylSummary where
  fitted : Weyl.Class
  a : Float
  b : Float
  c : Float
  phase : Float
  fidelity : Float

/-- A circuit and what it is built over. -/
structure Realization where
  /-- the basis gate with its angles, or the gate family with its scale -/
  synthesizer : String
  gateCount : Nat
  circuit : Sequence Float

structure Report where
  id : String
  target : String
  euler : Euler.Basis
  weyl : WeylSummary
  realization : Option Realization

def WeylSummary.ofDecomposition (d : Weyl.Decomposition Float) : WeylSummary :=
  ⟨d.fitted, d.a, d.b, d.c, d.phase, d.calculated⟩

namespace Realization

/-- A circuit over the basis gate. -/
def overGate (config : Config) (u : Mat4 Float) : Except Failure Realization := do
  let call ← during "basis gate" (Target.parseCall config.basisGate)
  let options ← lift (Synthesis.Options.default.withFidelity config.fidelity)
  let d ← lift (Synthesis.Decomposer.ofGate (.standard call.gate) call.params
    ((options.withEuler config.euler).withPulse config.pulse))
  let request := Synthesis.Request.default.withApproximate config.approximate
  let count ← lift (d.gateCount u request)
  let circuit ← lift (d.synthesize u request)
  let angles := if call.params.isEmpty then "" else Gate.formatParams call.params
  return ⟨call.gate.name ++ angles, count.val, circuit⟩

/-- A circuit over the gate family. -/
def overFamily (config : Config) (u : Mat4 Float) : Except Failure Realization := do
  let gate ← during "family" (lift (Gate.Standard.named config.family))
  let d ← lift (Family.Decomposer.ofGate (.standard gate) (.withEuler config.euler))
  let count ← lift (d.gateCount u Family.Decomposer.defaultAtol)
  let circuit ← lift (d.synthesize u Family.Decomposer.defaultAtol)
  return ⟨gate.name ++ "(θ) scale=" ++ Decimal.precise 4 d.scale, count, circuit⟩

def ofConfig (config : Config) (u : Mat4 Float) : Except Failure Realization :=
  if config.family.isEmpty then overGate config u else overFamily config u

end Realization

namespace Report

def build (config : Config) (id target : String) (u : Mat4 Float) : Except Failure Report := do
  let d ← lift (Weyl.Decomposition.ofUnitary u .default)
  let realization ←
    if config.weylOnly then pure none else (Realization.ofConfig config u).map some
  return ⟨id, target, config.euler, .ofDecomposition d, realization⟩

/-- The instructions of the circuit, if there is one. -/
def instructions (r : Report) : List (Circuit.Instruction Float) :=
  match r.realization with
  | some x => x.circuit.instructions
  | none => []

/-- The report with a function applied to all its numbers. -/
def mapNumbers (f : Float → Float) (r : Report) : Report :=
  { r with
    weyl := ⟨r.weyl.fitted, f r.weyl.a, f r.weyl.b, f r.weyl.c, f r.weyl.phase, f r.weyl.fidelity⟩
    realization := r.realization.map fun x => { x with circuit := x.circuit.mapNumbers f } }

end Report

end Entangle.Command
