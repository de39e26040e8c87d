import Mathlib
import Entangle.Family.Decomposer
import Entangle.Proofs.EntanglingGates
import Entangle.Proofs.SequenceInverse

/-!
# Circuits over a gate family

A circuit over a family is made of blocks: corrections in the gate set, their adjoints, and the family between
its own corrections. Each block is taken apart here once, and the blocks on one qubit always exist over exact
numbers, with the unitary of their angles.
-/

namespace Entangle.Family.Decomposer

open Circuit (Instruction Sequence)
open Weyl (Decomposition)

/-! ## What a block is made of -/

section Structure

variable {α : Type} [Scalar α] {d : Decomposer α} {s t : Sequence α} {u : Mat4 α} {target : Decomposition α}
  {angle atol c : α}

theorem oneQubitInverse_eq_ok {v : Mat2 α} {q : ℤ} :
    d.oneQubitInverse v q = .ok t ↔ ∃ s, d.oneQubit v q = .ok s ∧ s.inverse = .ok t :=
  bind_eq_ok

/-- One application between the adjoints of its own corrections. -/
theorem toInteraction_eq_ok : d.toInteraction angle = .ok s ↔
    ∃ g own innerRight innerLeft outerRight outerLeft, d.gate.matrix4 [d.scale * angle] = .ok g ∧
      Decomposition.ofUnitary g .default = .ok own ∧ d.oneQubitInverse own.k2r 0 = .ok innerRight ∧
      d.oneQubitInverse own.k2l 1 = .ok innerLeft ∧ d.oneQubitInverse own.k1r 0 = .ok outerRight ∧
      d.oneQubitInverse own.k1l 1 = .ok outerLeft ∧
      (((((Sequence.empty (-own.phase)).extend innerRight).extend innerLeft).append d.gate [d.scale * angle] [0, 1]).extend
        outerRight).extend outerLeft = s := by
  constructor
  · intro turned
    obtain ⟨g, stored, rest⟩ := bind_eq_ok.mp turned
    obtain ⟨own, decomposed, rest⟩ := bind_eq_ok.mp rest
    obtain ⟨innerRight, first, rest⟩ := bind_eq_ok.mp rest
    obtain ⟨innerLeft, second, rest⟩ := bind_eq_ok.mp rest
    obtain ⟨outerRight, third, rest⟩ := bind_eq_ok.mp rest
    obtain ⟨outerLeft, fourth, rest⟩ := bind_eq_ok.mp rest
    exact ⟨g, own, innerRight, innerLeft, outerRight, outerLeft, stored, decomposed, first, second, third, fourth,
      Except.ok.inj rest⟩
  · rintro ⟨g, own, innerRight, innerLeft, outerRight, outerLeft, stored, decomposed, first, second, third, fourth, rfl⟩
    refine bind_eq_ok.mpr ⟨g, stored, bind_eq_ok.mpr ⟨own, decomposed, bind_eq_ok.mpr ⟨innerRight, first, ?_⟩⟩⟩
    refine bind_eq_ok.mpr ⟨innerLeft, second, bind_eq_ok.mpr ⟨outerRight, third, bind_eq_ok.mpr ⟨outerLeft, fourth, ?_⟩⟩⟩
    rfl

/-- The second angle, between frame changes on both qubits, where it exceeds the tolerance. -/
def appendSecond (d : Decomposer α) (s : Sequence α) (target : Decomposition α) (atol : α) : Outcome α (Sequence α) :=
  if atol < Scalar.abs target.b then do
    let yy ← d.toInteraction (-2 * target.b)
    pure (appendBoth ((appendBoth s d.sdg).extend yy) d.s)
  else pure s

/-- The third angle, likewise. -/
def appendThird (d : Decomposer α) (s : Sequence α) (target : Decomposition α) (atol : α) : Outcome α (Sequence α) :=
  if atol < Scalar.abs target.c then do
    let zz ← d.thirdInteraction target.c
    return appendBoth ((appendBoth s d.h).extend zz) d.h
  else return s

theorem appendInteraction_eq : d.appendInteraction s target atol = (do
    let xx ← d.toInteraction (-2 * target.a)
    let s ← d.appendSecond (s.extend xx) target atol
    d.appendThird s target atol) := by
  rw [appendInteraction]
  cases d.toInteraction (-2 * target.a) with
  | error fault => rfl
  | ok xx =>
    by_cases large : atol < Scalar.abs target.b
    · simp only [bind, Except.bind]
      rw [appendSecond, if_pos large, if_pos large]
      cases d.toInteraction (-2 * target.b) <;> rfl
    · simp only [bind, Except.bind]
      rw [appendSecond, if_neg large, if_neg large]
      rfl

theorem appendInteraction_eq_ok : d.appendInteraction s target atol = .ok t ↔
    ∃ xx s', d.toInteraction (-2 * target.a) = .ok xx ∧ d.appendSecond (s.extend xx) target atol = .ok s' ∧
      d.appendThird s' target atol = .ok t := by
  rw [appendInteraction_eq]
  constructor
  · intro appended
    obtain ⟨xx, first, rest⟩ := bind_eq_ok.mp appended
    obtain ⟨s', second, third⟩ := bind_eq_ok.mp rest
    exact ⟨xx, s', first, second, third⟩
  · rintro ⟨xx, s', first, second, third⟩
    exact bind_eq_ok.mpr ⟨xx, first, bind_eq_ok.mpr ⟨s', second, third⟩⟩

theorem synthesize_eq_ok : d.synthesize u atol = .ok s ↔
    ∃ target innerRight innerLeft t outerRight outerLeft, Decomposition.ofUnitary u .default = .ok target ∧
      d.oneQubit target.k2r 0 = .ok innerRight ∧ d.oneQubit target.k2l 1 = .ok innerLeft ∧
      d.appendInteraction (((Sequence.empty target.phase).extend innerRight).extend innerLeft) target atol = .ok t ∧
      d.oneQubit target.k1r 0 = .ok outerRight ∧ d.oneQubit target.k1l 1 = .ok outerLeft ∧
      (t.extend outerRight).extend outerLeft = s := by
  constructor
  · intro synthesized
    obtain ⟨target, fitted, rest⟩ := bind_eq_ok.mp (Outcome.step_eq_ok.mp synthesized)
    obtain ⟨innerRight, first, rest⟩ := bind_eq_ok.mp rest
    obtain ⟨innerLeft, second, rest⟩ := bind_eq_ok.mp rest
    obtain ⟨t, appended, rest⟩ := bind_eq_ok.mp rest
    obtain ⟨outerRight, third, rest⟩ := bind_eq_ok.mp rest
    obtain ⟨outerLeft, fourth, rest⟩ := bind_eq_ok.mp rest
    exact ⟨target, innerRight, innerLeft, t, outerRight, outerLeft, fitted, first, second, appended, third, fourth,
      Except.ok.inj rest⟩
  · rintro ⟨target, innerRight, innerLeft, t, outerRight, outerLeft, fitted, first, second, appended, third, fourth, rfl⟩
    refine Outcome.step_eq_ok.mpr (bind_eq_ok.mpr ⟨target, fitted, bind_eq_ok.mpr ⟨innerRight, first, ?_⟩⟩)
    refine bind_eq_ok.mpr ⟨innerLeft, second, bind_eq_ok.mpr ⟨t, appended, bind_eq_ok.mpr ⟨outerRight, third, ?_⟩⟩⟩
    exact bind_eq_ok.mpr ⟨outerLeft, fourth, rfl⟩

end Structure

/-! ## Corrections -/

noncomputable section

open Matrix
open Circuit.Sequence (Within placed)

variable {d : Decomposer ℝ} {q : ℤ}

/-- A correction is always written, within one and a half tolerances of the product of rotations it stands for. -/
theorem exists_oneQubit (d : Decomposer ℝ) (v : Mat2 ℝ) (wire : q = 0 ∨ q = 1) :
    ∃ s, d.oneQubit v q = .ok s ∧ s.Within 15e-13 (placed q (d.euler.product v)) ∧ s.Over fun i => ∃ m, i.Local q m := by
  have written : d.oneQubit v q = .ok (Euler.emission { Euler.Options.default with qubit := q } v d.euler) :=
    if_pos (Square.isFinite_eq v)
  have tolerance : (Euler.Options.default : Euler.Options ℝ).atol = 1e-12 := rfl
  have within := Euler.emission_within (o := { Euler.Options.default with qubit := q }) wire
    (by rw [tolerance]; norm_num) d.euler v
  obtain ⟨w, denotes, near⟩ := within
  refine ⟨_, written, ⟨w, denotes, near.mono ?_⟩, denotes.locals (Euler.over_decompose written)⟩
  rw [tolerance]
  norm_num

/-- So is its adjoint. -/
theorem exists_oneQubitInverse (d : Decomposer ℝ) (v : Mat2 ℝ) (wire : q = 0 ∨ q = 1) :
    ∃ s, d.oneQubitInverse v q = .ok s ∧ s.Within 15e-13 (placed q (d.euler.product v)ᴴ) ∧ s.Over fun i => ∃ m, i.Local q m := by
  obtain ⟨s, written, within, locals⟩ := d.exists_oneQubit v wire
  have reversible : s.Over Instruction.Reversible := locals.mono fun i single => by
    obtain ⟨m, single⟩ := single
    exact single.reversible
  obtain ⟨t, inverted, within'⟩ := within.inverse reversible
  refine ⟨t, oneQubitInverse_eq_ok.mpr ⟨s, written, inverted⟩, ?_, ?_⟩
  · rwa [← Sequence.placed_conjTranspose]
  · refine locals.inverse inverted fun i j single inverts => ?_
    obtain ⟨m, single⟩ := single
    exact single.inverts inverts

end

end Entangle.Family.Decomposer
