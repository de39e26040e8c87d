import Mathlib
import Entangle.Proofs.ClassChoice
import Entangle.Proofs.PlainCircuit

/-!
# The choice of the count of entangling gates

The count is chosen by the traces that the circuits with none to three gates have with the target, each
turned into a fidelity and lowered for every gate. With an exact basis decomposition the coded traces
are those of the circuits, so that the choice is the best one, and the first of equals. For gates without
loss, the best fidelity is one; inside the chamber a circuit reaches it only as the target itself.
-/

noncomputable section

namespace Entangle

open Matrix Complex
open Weyl (Axis Decomposition angles coupling traceFidelity)

namespace Synthesis

/-! ## The search for the best count -/

/-- The first place with the largest value among those that are seen. -/
structure Leads (value : Fin 4 → ℝ) (seen : List (Fin 4)) (best : Fin 4 × ℝ) : Prop where
  member : best.1 ∈ seen
  attained : best.2 = value best.1
  most : ∀ m ∈ seen, value m ≤ best.2
  first : ∀ m ∈ seen, m < best.1 → value m < best.2

/-- One step of the search keeps the larger value, and the earlier one of equals. -/
theorem Leads.step {value : Fin 4 → ℝ} {seen : List (Fin 4)} {best : Fin 4 × ℝ} (leads : Leads value seen best)
    {i : Fin 4} (later : ∀ m ∈ seen, m < i) :
    Leads value (seen ++ [i]) (if best.2 < value i then (i, value i) else best) := by
  split
  · rename_i larger
    refine ⟨by simp, rfl, fun m member => ?_, fun m member before => ?_⟩
    · rcases List.mem_append.mp member with old | new
      · exact (leads.most m old).trans larger.le
      · rw [List.mem_singleton.mp new]
    · rcases List.mem_append.mp member with old | new
      · exact (leads.most m old).trans_lt larger
      · rw [List.mem_singleton.mp new] at before
        exact absurd before (lt_irrefl i)
  · rename_i smaller
    refine ⟨List.mem_append_left _ leads.member, leads.attained, fun m member => ?_, fun m member before => ?_⟩
    · rcases List.mem_append.mp member with old | new
      · exact leads.most m old
      · rw [List.mem_singleton.mp new]
        exact not_lt.mp smaller
    · rcases List.mem_append.mp member with old | new
      · exact leads.first m old before
      · rw [List.mem_singleton.mp new] at before
        exact absurd (before.trans (later _ leads.member)) (lt_irrefl i)

/-- A whole search does. -/
theorem Leads.run {value : Fin 4 → ℝ} (rest : List (Fin 4)) {seen : List (Fin 4)} {best : Fin 4 × ℝ}
    (leads : Leads value seen best) (sorted : (seen ++ rest).Pairwise (· < ·)) :
    Leads value (seen ++ rest)
      (rest.foldl (fun best i => if best.2 < value i then (i, value i) else best) best) := by
  induction rest generalizing seen best with
  | nil => simpa using leads
  | cons i rest ih =>
    have later : ∀ m ∈ seen, m < i := fun m member =>
      (List.pairwise_append.mp sorted).2.2 m member i (by simp)
    have regrouped : seen ++ i :: rest = seen ++ [i] ++ rest := by simp
    rw [regrouped] at sorted ⊢
    exact ih (leads.step later) sorted

/-- The expected fidelity of each count. -/
def expected (tr : Vector (Cx ℝ) 4) (fidelity : ℝ) (n : Fin 4) : ℝ := expectedFidelity (tr.get n) fidelity n

theorem bestCount_leads {tr : Vector (Cx ℝ) 4} {fidelity : ℝ} (nonnegative : ∀ n, 0 ≤ expected tr fidelity n) :
    (∀ m, expected tr fidelity m ≤ expected tr fidelity (bestCount tr fidelity)) ∧
      ∀ m < bestCount tr fidelity, expected tr fidelity m < expected tr fidelity (bestCount tr fidelity) := by
  have start : Leads (expected tr fidelity) [0] (0, expected tr fidelity 0) :=
    ⟨by simp, rfl, by simp, by simp⟩
  have search := start.run [1, 2, 3] (by decide)
  have below : (-1 : ℝ) < expected tr fidelity 0 := by linarith [nonnegative 0]
  set best := [1, 2, 3].foldl (fun best i => if best.2 < expected tr fidelity i then (i, expected tr fidelity i) else best)
    (0, expected tr fidelity 0) with bestDef
  have found : bestCount tr fidelity = best.1 := by
    have opened : (if (-1 : ℝ) < expected tr fidelity 0 then (0, expected tr fidelity 0) else (0, -1)) =
        ((0 : Fin 4), expected tr fidelity 0) := if_pos below
    rw [bestCount, Exact.one_eq, bestDef, ← opened]
    rfl
  rw [found, ← search.attained]
  exact ⟨fun m => search.most m (by fin_cases m <;> simp), fun m => search.first m (by fin_cases m <;> simp)⟩

/-! ## Fidelities of circuits -/

/-- The average gate fidelity of two unitaries. -/
def averageFidelity (v u : Mat4 ℝ) : ℝ := (4 + ‖(v.toMatrixᴴ * u.toMatrix).trace‖ ^ 2) / 20

theorem averageFidelity_self {u : Mat4 ℝ} (unitary : u.Unitary) : averageFidelity u u = 1 := by
  rw [averageFidelity, ← star_eq_conjTranspose, mem_unitaryGroup_iff'.mp unitary, Matrix.trace_one, Fintype.card_fin]
  norm_num

namespace Decomposer

variable {d : Decomposer ℝ} {g : Mat4 ℝ} {target : Decomposition ℝ}

/-- The coded trace is the one of the circuit. -/
theorem toComplex_trace_circuit (basis : d.ExactBasis g) (factored : target.Factored) (n : Fin 4) :
    ((d.tracesFor target).get n).toComplex =
      ((d.circuit g n target).toMatrixᴴ * target.reconstruct.toMatrix).trace := by
  rw [toMatrix_circuit basis, Decomposition.reconstruct, Weyl.toMatrix_form,
    Weyl.trace_dressed factored.outerLeft factored.outerRight factored.innerLeft factored.innerRight, toComplex_tracesFor]

theorem expected_eq (basis : d.ExactBasis g) (factored : target.Factored) (fidelity : ℝ) (n : Fin 4) :
    expected (d.tracesFor target) fidelity n =
      averageFidelity (d.circuit g n target) target.reconstruct * fidelity ^ (n : ℕ) := by
  rw [expected, expectedFidelity, traceFidelity, averageFidelity, Cx.abs_eq, toComplex_trace_circuit basis factored,
    Exact.pow_eq, Exact.ofNat_eq, Real.rpow_natCast, pow_two]
  rfl

theorem expected_nonneg (basis : d.ExactBasis g) (factored : target.Factored) {fidelity : ℝ} (nonnegative : 0 ≤ fidelity)
    (n : Fin 4) : 0 ≤ expected (d.tracesFor target) fidelity n := by
  rw [expected_eq basis factored, averageFidelity]
  positivity

/-- In the chamber, what a circuit misses of the target are small angles. -/
theorem abs_missed_le (second : 0 ≤ d.basis.b ∧ d.basis.b ≤ Real.pi / 4) (chamber : target.InChamber) (n : Fin 4) (k : Axis) :
    |(angles target.a target.b target.c - d.reached target n) k| ≤ Real.pi / 4 := by
  obtain ⟨first, inner, third⟩ := chamber
  have outer := abs_nonneg target.c
  have positive := Real.pi_pos
  rw [Pi.sub_apply]
  rcases uses_cases n with rfl | rfl | rfl | rfl <;> cases k <;> simp only [reached, angles, Pi.zero_apply, sub_zero, sub_self,
    abs_zero]
  all_goals first
    | (rw [abs_le]; constructor <;> linarith)
    | linarith

/-- A circuit that reaches the angles of the target is the target. -/
theorem circuit_eq_of_reached (basis : d.ExactBasis g) {n : Fin 4}
    (all : d.reached target n = angles target.a target.b target.c) : d.circuit g n target = target.reconstruct := by
  apply Square.toMatrix_injective
  rw [toMatrix_circuit basis, Decomposition.reconstruct, Weyl.toMatrix_form, all]

/-- In the chamber, a circuit with fidelity one is the target. -/
theorem circuit_eq_of_fidelity (basis : d.ExactBasis g) (second : 0 ≤ d.basis.b ∧ d.basis.b ≤ Real.pi / 4)
    (factored : target.Factored) (chamber : target.InChamber) {n : Fin 4}
    (full : 1 ≤ averageFidelity (d.circuit g n target) target.reconstruct) : d.circuit g n target = target.reconstruct := by
  have trace : 4 ≤ ‖(coupling (angles target.a target.b target.c - d.reached target n)).trace‖ := by
    rw [averageFidelity, ← toComplex_trace_circuit basis factored, toComplex_tracesFor] at full
    have square : 4 ^ 2 ≤ ‖(coupling (angles target.a target.b target.c - d.reached target n)).trace‖ ^ 2 := by linarith
    exact (pow_le_pow_iff_left₀ (by norm_num) (norm_nonneg _) two_ne_zero).mp square
  have small := abs_missed_le second chamber n
  have missed := Weyl.eq_zero_of_full_trace ((small .x).trans_lt (by linarith [Real.pi_pos]))
    (fun k => (small k).trans_lt (by linarith [Real.pi_pos])) trace
  exact circuit_eq_of_reached basis (sub_eq_zero.mp missed).symm

/-- The chosen count is the first of the best. -/
theorem countFor_leads (basis : d.ExactBasis g) (factored : target.Factored) {r : Request ℝ} (free : r.uses = none)
    (nonnegative : 0 ≤ d.effectiveFidelity r) :
    (∀ m, averageFidelity (d.circuit g m target) target.reconstruct * d.effectiveFidelity r ^ (m : ℕ) ≤
        averageFidelity (d.circuit g (d.countFor target r) target) target.reconstruct *
          d.effectiveFidelity r ^ (d.countFor target r : ℕ)) ∧
      ∀ m < d.countFor target r,
        averageFidelity (d.circuit g m target) target.reconstruct * d.effectiveFidelity r ^ (m : ℕ) <
          averageFidelity (d.circuit g (d.countFor target r) target) target.reconstruct *
            d.effectiveFidelity r ^ (d.countFor target r : ℕ) := by
  have chosen : d.countFor target r = bestCount (d.tracesFor target) (d.effectiveFidelity r) := by
    rw [countFor, free]
    rfl
  obtain ⟨most, first⟩ := bestCount_leads (expected_nonneg basis factored nonnegative)
  simp only [expected_eq basis factored, ← chosen] at most first
  exact ⟨most, first⟩

/-- Without loss, the circuit of the chosen count is the target. -/
theorem circuit_countFor (basis : d.ExactBasis g) (second : 0 ≤ d.basis.b ∧ d.basis.b ≤ Real.pi / 4)
    (factored : target.Factored) (chamber : target.InChamber) {r : Request ℝ} (free : r.uses = none)
    (lossless : d.effectiveFidelity r = 1) : d.circuit g (d.countFor target r) target = target.reconstruct := by
  have reaches := (countFor_leads basis factored free (lossless ▸ zero_le_one)).1 3
  have three : d.circuit g 3 target = target.reconstruct := circuit_eq_of_reached basis rfl
  rw [lossless, one_pow, one_pow, mul_one, mul_one, three, averageFidelity_self factored.reconstruct_unitary] at reaches
  exact circuit_eq_of_fidelity basis second factored chamber reaches

end Decomposer

end Synthesis

end Entangle

end
