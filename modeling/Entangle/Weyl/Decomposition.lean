import Entangle.Decimal.Layout
import Entangle.Weyl.Specialize

/-!
# Canonical decompositions

The canonical form of a two-qubit unitary, fitted to its symmetry class. The class is the most
symmetric one within the requested fidelity, or a forced one; the phase takes up that of the trace
between the fitted and the exact form.
-/

namespace Entangle.Weyl

variable {α : Type} [Scalar α]

structure Decomposition (α : Type) extends Form α where
  fitted : Class
  /-- the fidelity of the fitted form with the exact one -/
  calculated : α
  requested : Option α
  unitary : Mat4 α

structure Options (α : Type) where
  /-- the fidelity that a fitted form has to reach; without one, no class is looked for -/
  fidelity : Option α
  forced : Option Class

namespace Options

def default : Options α := ⟨some 0.999999999, none⟩

def withFidelity (o : Options α) (fidelity : α) : Outcome α (Options α) :=
  if Scalar.isProbability fidelity then .ok { o with fidelity := some fidelity }
  else .error (.rejected .fidelity)

def withoutFidelity (o : Options α) : Options α := { o with fidelity := none }

def withClass (o : Options α) (k : Class) : Options α := { o with forced := some k }

/-- The class with a given number, forced. -/
def withClassNumber (o : Options α) (number : UInt8) : Outcome α (Options α) :=
  match Class.ofNumber? number with
  | some k => .ok (o.withClass k)
  | none => .error (.rejected .forcedClass)

end Options

/-- The class that a form is fitted to. -/
def Options.classFor (o : Options α) (f : Form α) : Class :=
  match o.forced, o.fidelity with
  | some k, _ => k
  | none, some fidelity => f.nearestClass fidelity
  | none, none => .general

/-- The fidelity that is requested and missed, if there is one; a difference of `10^-13` is
allowed. -/
def Options.missed? (o : Options α) (calculated : α) : Option α :=
  o.fidelity.filter fun fidelity => decide (calculated + 1e-13 < fidelity)

namespace Decomposition

/-- The decomposition that a canonical form of `u` is fitted to. -/
def ofForm (u : Mat4 α) (f : Form α) (o : Options α) : Outcome α (Decomposition α) :=
  Outcome.step "New" do
    let k := o.classFor f
    let fit ← f.fit k
    let calculated := traceFidelity fit.trace
    match o.missed? calculated with
    | some requested => .error (.fidelity k calculated requested)
    | none =>
        .ok
          { toForm := { fit.form with phase := fit.form.phase + fit.trace.arg }
            fitted := k, calculated := calculated, requested := o.fidelity, unitary := u }

def ofUnitary (u : Mat4 α) (o : Options α) : Outcome α (Decomposition α) := do
  ofForm u (← canonicalForm u) o

/-- The unitary that the decomposition denotes. -/
def reconstruct (d : Decomposition α) : Mat4 α := d.toForm.matrix

/-- One line with the class, the angles, the phase and the fidelity. -/
def text (d : Decomposition Float) : String :=
  let number := Decimal.precise 12
  "weyl.Decomposition\x7b" ++ d.fitted.name ++ " a=" ++ number d.a ++ " b=" ++ number d.b ++
    " c=" ++ number d.c ++ " phase=" ++ number d.phase ++ " fidelity=" ++ number d.calculated ++ "\x7d"

end Decomposition

/-- The three angles of the canonical form, without any symmetry class. -/
def coordinates (u : Mat4 α) : Outcome α (α × α × α) := do
  let d ← Decomposition.ofUnitary u Options.default.withoutFidelity
  return (d.a, d.b, d.c)

end Entangle.Weyl
