import Entangle.Circuit.Sequence
import Entangle.Synthesis.PulseMode
import Entangle.Weyl.Decomposition

/-!
# Synthesis over an entangling gate

An entangling gate with interaction angles `(π/4, b, 0)` reaches every two-qubit unitary with at most
three applications. The one-qubit corrections around them depend on `b` and on the factors of the
gate's own canonical form, and are computed once.
-/

namespace Entangle.Synthesis

open Gate (Operation rzMatrix)
open Weyl (Decomposition traceFidelity ipz)

variable {α : Type} [Scalar α]

/-- Corrections on both qubits between two entangling gates. -/
structure Layer (α : Type) where
  /-- on qubit 0 -/
  right : Mat2 α
  /-- on qubit 1 -/
  left : Mat2 α

/-- The fixed factors of the corrections around three entangling gates. -/
structure ThreeUse (α : Type) where
  u0l : Mat2 α
  u0r : Mat2 α
  u1l : Mat2 α
  u1ra : Mat2 α
  u1rb : Mat2 α
  u2la : Mat2 α
  u2lb : Mat2 α
  u2ra : Mat2 α
  u2rb : Mat2 α
  u3l : Mat2 α
  u3r : Mat2 α

/-- The fixed factors of the corrections around two entangling gates. -/
structure TwoUse (α : Type) where
  q0l : Mat2 α
  q0r : Mat2 α
  q1la : Mat2 α
  q1lb : Mat2 α
  q1ra : Mat2 α
  q1rb : Mat2 α
  q2l : Mat2 α
  q2r : Mat2 α

namespace FixedFactor

/-- `√(1/2)` as a factor. -/
def half : Cx α := ⟨Scalar.sqrtHalf, 0⟩

/-- `-i` -/
def minusI : Cx α := ⟨0, -1⟩

def k11l (b : α) : Mat2 α :=
  let t : Cx α := ⟨0.5, -0.5⟩
  .of (t * (minusI * Cx.cis (-b))) (t * Cx.cis (-b)) (t * (minusI * Cx.cis b)) (t * -Cx.cis b)

def k11r (b : α) : Mat2 α :=
  .of (half * (Cx.i * Cx.cis (-b))) (half * -Cx.cis (-b)) (half * Cx.cis b) (half * (minusI * Cx.cis b))

def k12l : Mat2 α := .of ⟨0.5, 0.5⟩ ⟨0.5, 0.5⟩ ⟨-0.5, 0.5⟩ ⟨0.5, -0.5⟩

def k12r : Mat2 α :=
  .of ⟨0, Scalar.sqrtHalf⟩ ⟨Scalar.sqrtHalf, 0⟩ ⟨-Scalar.sqrtHalf, 0⟩ ⟨0, -Scalar.sqrtHalf⟩

/-- The product of the outer left factor of one gate and the inner left factor of the next. -/
def k32lk21l (b : α) : Mat2 α :=
  let c := Scalar.cos (2 * b)
  let s := Scalar.sin (2 * b)
  .of (half * ⟨1, c⟩) (half * ⟨0, s⟩) (half * ⟨0, s⟩) (half * ⟨1, -c⟩)

def k21r (b : α) : Mat2 α :=
  let t : Cx α := ⟨0.5, 0.5⟩
  .of (t * (minusI * Cx.cis (-2 * b))) (t * Cx.cis (-2 * b)) (t * (Cx.i * Cx.cis (2 * b)))
    (t * Cx.cis (2 * b))

def k22l : Mat2 α := .of half (-half) half half

def k22r : Mat2 α := .of 0 1 ⟨-1, 0⟩ 0

def k31l (b : α) : Mat2 α :=
  .of (half * Cx.cis (-b)) (half * Cx.cis (-b)) (half * -Cx.cis b) (half * Cx.cis b)

def k31r (b : α) : Mat2 α := .of (Cx.i * Cx.cis b) 0 0 (minusI * Cx.cis (-b))

def k32r (b : α) : Mat2 α :=
  let t : Cx α := ⟨0.5, 0.5⟩
  .of (t * Cx.cis b) (t * -Cx.cis (-b)) (t * (minusI * Cx.cis b)) (t * (minusI * Cx.cis (-b)))

end FixedFactor

open FixedFactor in
def ThreeUse.ofBasis (basis : Decomposition α) : ThreeUse α :=
  let b := basis.b
  let k1ld := basis.k1l.dagger
  let k1rd := basis.k1r.dagger
  let k2ld := basis.k2l.dagger
  let k2rd := basis.k2r.dagger
  { u0l := k31l b * k1ld
    u0r := k31r b * k1rd
    u1l := k2ld * k32lk21l b * k1ld
    u1ra := k2rd * k32r b
    u1rb := k21r b * k1rd
    u2la := k2ld * k22l
    u2lb := k11l b * k1ld
    u2ra := k2rd * k22r
    u2rb := k11r b * k1rd
    u3l := k2ld * k12l
    u3r := k2rd * k12r }

open FixedFactor in
def TwoUse.ofBasis (basis : Decomposition α) : TwoUse α :=
  let b := basis.b
  let k1ld := basis.k1l.dagger
  let k1rd := basis.k1r.dagger
  let k2ld := basis.k2l.dagger
  let k2rd := basis.k2r.dagger
  { q0l := k12l.dagger * k1ld
    q0r := k12r.dagger * ipz * k1rd
    q1la := k2ld * (k11l b).dagger
    q1lb := k11l b * k1ld
    q1ra := k2rd * ipz * (k11r b).dagger
    q1rb := k11r b * k1rd
    q2l := k2ld * k12l
    q2r := k2rd * k12r }

structure Options (α : Type) where
  /-- the fidelity of one application of the entangling gate -/
  fidelity : α
  euler : Euler.Basis
  pulse : PulseMode

namespace Options

def default : Options α := ⟨1, .u, .auto⟩

def withFidelity (o : Options α) (fidelity : α) : Outcome α (Options α) :=
  if Scalar.isProbability fidelity then .ok { o with fidelity := fidelity }
  else .error (.rejected .gateFidelity)

def withEuler (o : Options α) (b : Euler.Basis) : Options α := { o with euler := b }

def withEulerNumber (o : Options α) (number : UInt8) : Outcome α (Options α) :=
  match Euler.Basis.ofNumber? number with
  | some b => .ok (o.withEuler b)
  | none => .error (.rejected .correctionBasis)

def withPulse (o : Options α) (mode : PulseMode) : Options α := { o with pulse := mode }

def withPulseNumber (o : Options α) (number : UInt8) : Outcome α (Options α) :=
  match PulseMode.ofNumber? number with
  | some mode => .ok (o.withPulse mode)
  | none => .error (.rejected .pulseMode)

end Options

structure Decomposer (α : Type) where
  gate : Operation α
  params : List α
  options : Options α
  /-- the canonical decomposition of the entangling gate -/
  basis : Decomposition α
  two : TwoUse α
  three : ThreeUse α

namespace Decomposer

/-- The gate has angles `(π/4, b, 0)`, so that two and three applications are exact. -/
def isSuperControlled (d : Decomposer α) : Bool :=
  decide (Scalar.abs (d.basis.a - Scalar.quarterPi) ≤ 1e-9) && decide (Scalar.abs d.basis.c ≤ 1e-9)

def requireTwoQubits (gate : Operation α) : Outcome α Unit := do
  if (← gate.qubits) = 2 then return
  else .error (Cause.within (.subject gate.name) .notTwoQubit)

/-- The decomposer for a gate whose matrix is given. -/
def ofMatrix (gate : Operation α) (params : List α) (u : Mat4 α) (o : Options α) :
    Outcome α (Decomposer α) :=
  Outcome.step "New" do
    requireTwoQubits gate
    let basis ← Decomposition.ofUnitary u .default
    return ⟨gate, params, o, basis, .ofBasis basis, .ofBasis basis⟩

def ofGate (gate : Operation α) (params : List α) (o : Options α) : Outcome α (Decomposer α) := do
  let u ← Outcome.step "New" do
    requireTwoQubits gate
    gate.matrix4 params
  ofMatrix gate params u o

end Decomposer

/-- The traces of the best circuits with none to three entangling gates against an interaction, for
an entangling gate with second angle `basisB`. -/
def traces (a b c basisB : α) : Vector (Cx α) 4 :=
  let quarter : α := Scalar.quarterPi
  #v[4 * ⟨Scalar.cos a * Scalar.cos b * Scalar.cos c, Scalar.sin a * Scalar.sin b * Scalar.sin c⟩,
    4 * ⟨Scalar.cos (quarter - a) * Scalar.cos (basisB - b) * Scalar.cos c,
      Scalar.sin (quarter - a) * Scalar.sin (basisB - b) * Scalar.sin c⟩,
    ⟨4 * Scalar.cos c, 0⟩,
    4]

/-- The expected fidelity of a circuit with a given trace and count of entangling gates. -/
def expectedFidelity (tr : Cx α) (fidelity : α) (count : Nat) : α :=
  traceFidelity tr * Scalar.pow fidelity (Scalar.ofNat count)

/-- The fewest entangling gates with the highest expected fidelity. Fidelities are not negative, so
the search starts below them. -/
def bestCount (tr : Vector (Cx α) 4) (fidelity : α) : Fin 4 :=
  ((List.finRange 4).foldl (fun (best : Fin 4 × α) (i : Fin 4) =>
    let value := expectedFidelity (tr.get i) fidelity i
    if best.2 < value then (i, value) else best) (0, -1)).1

/-- What one synthesis may set. -/
structure Request (α : Type) where
  /-- whether exactness may be traded for fewer entangling gates -/
  approximate : Bool
  fidelity : Option α
  uses : Option (Fin 4)

namespace Request

def default : Request α := ⟨true, none, none⟩

def withApproximate (r : Request α) (approximate : Bool) : Request α :=
  { r with approximate := approximate }

def withFidelity (r : Request α) (fidelity : α) : Outcome α (Request α) :=
  if Scalar.isProbability fidelity then .ok { r with fidelity := some fidelity }
  else .error (.rejected .gateFidelityOverride)

def withUses (r : Request α) (uses : Int) : Outcome α (Request α) :=
  match Mat4.index? 4 uses with
  | some n => .ok { r with uses := some n }
  | none => .error (.rejected .gateUses)

end Request

namespace Decomposer

def tracesFor (d : Decomposer α) (target : Decomposition α) : Vector (Cx α) 4 :=
  traces target.a target.b target.c d.basis.b

/-- The fidelity that decides the count of entangling gates. -/
def effectiveFidelity (d : Decomposer α) (r : Request α) : α :=
  if r.approximate then r.fidelity.getD d.options.fidelity else 1

/-- The count of entangling gates for a unitary, from its angles without any symmetry class. -/
def gateCount (d : Decomposer α) (u : Mat4 α) (r : Request α) : Outcome α (Fin 4) :=
  match r.uses with
  | some n => .ok n
  | none => do
      let (a, b, c) ← Outcome.step "NumBasisGates" (Weyl.coordinates u)
      return bestCount (traces a b c d.basis.b) (d.effectiveFidelity r)

/-- The corrections without an entangling gate. -/
def corrections0 (target : Decomposition α) : List (Layer α) :=
  [⟨target.k1r * target.k2r, target.k1l * target.k2l⟩]

/-- The corrections around one entangling gate, exact for targets with the angles of the gate. -/
def corrections1 (d : Decomposer α) (target : Decomposition α) : List (Layer α) :=
  [⟨d.basis.k2r.dagger * target.k2r, d.basis.k2l.dagger * target.k2l⟩,
    ⟨target.k1r * d.basis.k1r.dagger, target.k1l * d.basis.k1l.dagger⟩]

/-- The corrections around two entangling gates, exact for targets with third angle zero. -/
def corrections2 (d : Decomposer α) (target : Decomposition α) : List (Layer α) :=
  let q := d.two
  [⟨q.q2r * target.k2r, q.q2l * target.k2l⟩,
    ⟨q.q1ra * rzMatrix (2 * target.b) * q.q1rb, q.q1la * rzMatrix (-2 * target.a) * q.q1lb⟩,
    ⟨target.k1r * q.q0r, target.k1l * q.q0l⟩]

/-- The corrections around three entangling gates, exact for every target. -/
def corrections3 (d : Decomposer α) (target : Decomposition α) : List (Layer α) :=
  let q := d.three
  [⟨q.u3r * target.k2r, q.u3l * target.k2l⟩,
    ⟨q.u2ra * rzMatrix (2 * target.b) * q.u2rb, q.u2la * rzMatrix (-2 * target.a) * q.u2lb⟩,
    ⟨q.u1ra * rzMatrix (-2 * target.c) * q.u1rb, q.u1l⟩,
    ⟨target.k1r * q.u0r, target.k1l * q.u0l⟩]

def corrections (d : Decomposer α) (n : Fin 4) (target : Decomposition α) : List (Layer α) :=
  match n with
  | 0 => corrections0 target
  | 1 => d.corrections1 target
  | 2 => d.corrections2 target
  | 3 => d.corrections3 target

end Decomposer

end Entangle.Synthesis
