import Mathlib
import Entangle.Proofs.GateCount

/-!
# The count and the fidelity of an application

Each application of the entangling gate multiplies the expected fidelity of a circuit by that of the gate. A better gate
favours longer circuits: what a shorter circuit has to gain by its fewer factors shrinks as the factor grows. So the
count that is announced never falls when the fidelity rises, down to a fidelity of zero, where no gate is worth applying.
-/

noncomputable section

namespace Entangle.Synthesis

open Weyl (axial)

variable {tr : Vector (Cx ℝ) 4} {f g : ℝ}

/-! ## The best count -/

/-- The fidelity of each circuit with gates that lose nothing. -/
def ideal (tr : Vector (Cx ℝ) 4) (n : Fin 4) : ℝ := Weyl.traceFidelity (tr.get n)

theorem ideal_pos (tr : Vector (Cx ℝ) 4) (n : Fin 4) : 0 < ideal tr n := by
  rw [ideal, Weyl.traceFidelity_eq]
  positivity

theorem expected_eq_ideal (tr : Vector (Cx ℝ) 4) (f : ℝ) (n : Fin 4) : expected tr f n = ideal tr n * f ^ (n : ℕ) := by
  rw [expected, expectedFidelity, Exact.pow_eq, Exact.ofNat_eq, Real.rpow_natCast]
  rfl

theorem expected_nonneg (tr : Vector (Cx ℝ) 4) (nonnegative : 0 ≤ f) (n : Fin 4) : 0 ≤ expected tr f n := by
  rw [expected_eq_ideal]
  exact mul_nonneg (ideal_pos tr n).le (pow_nonneg nonnegative _)

/-- With a gate that is lost altogether, the empty circuit is the best: its fidelity has no factor. -/
theorem bestCount_lost (tr : Vector (Cx ℝ) 4) : bestCount tr 0 = 0 := by
  obtain ⟨most, -⟩ := bestCount_leads (expected_nonneg tr le_rfl)
  by_contra other
  have count : (bestCount tr 0 : ℕ) ≠ 0 := fun zero => other (Fin.ext zero)
  have below := most 0
  rw [expected_eq_ideal, expected_eq_ideal, zero_pow count, mul_zero, Fin.val_zero, pow_zero, mul_one] at below
  exact absurd below (not_le.mpr (ideal_pos tr 0))

/-- Where the longer of two circuits is the better one, it stays so with a better gate. -/
theorem expected_lt_of_le {m n : Fin 4} (shorter : m < n) (positive : 0 < f) (better : f ≤ g)
    (longer : expected tr f m < expected tr f n) : expected tr g m < expected tr g n := by
  obtain ⟨k, more⟩ : ∃ k, (n : ℕ) = m + k := Nat.exists_eq_add_of_le (Fin.le_def.mp shorter.le)
  rw [expected_eq_ideal, expected_eq_ideal, more, pow_add] at longer ⊢
  have gain : ideal tr m < ideal tr n * f ^ k := by
    refine lt_of_mul_lt_mul_right ?_ (pow_pos positive (m : ℕ)).le
    linarith
  calc
    ideal tr m * g ^ (m : ℕ) < ideal tr n * f ^ k * g ^ (m : ℕ) :=
      mul_lt_mul_of_pos_right gain (pow_pos (positive.trans_le better) _)
    _ ≤ ideal tr n * g ^ k * g ^ (m : ℕ) := by
      have factor := pow_le_pow_left₀ positive.le better k
      have kept := (ideal_pos tr n).le
      have weight := (pow_pos (positive.trans_le better) (m : ℕ)).le
      gcongr
    _ = _ := by ring

/-- The best count does not fall when the gate gets better. -/
theorem bestCount_mono (tr : Vector (Cx ℝ) 4) (nonnegative : 0 ≤ f) (better : f ≤ g) : bestCount tr f ≤ bestCount tr g := by
  rcases nonnegative.eq_or_lt with rfl | positive
  · rw [bestCount_lost]
    exact Fin.zero_le _
  obtain ⟨-, first⟩ := bestCount_leads (expected_nonneg tr positive.le)
  obtain ⟨most, -⟩ := bestCount_leads (expected_nonneg tr (positive.le.trans better))
  -- a smaller count at the better gate would have been beaten there as it was before
  by_contra falls
  have shorter := not_le.mp falls
  exact absurd (expected_lt_of_le shorter positive better (first _ shorter)) (not_lt.mpr (most _))

/-! ## The announced count -/

theorem Request.withFidelity_eq_ok {r r' : Request ℝ} :
    r.withFidelity f = .ok r' ↔ (0 ≤ f ∧ f ≤ 1) ∧ { r with fidelity := some f } = r' := by
  unfold withFidelity Scalar.isProbability
  rw [Exact.zero_eq, Exact.one_eq]
  by_cases probability : 0 ≤ f ∧ f ≤ 1
  · simp [probability]
  · simp [probability]

namespace Decomposer

/-- The count that is announced for a unitary does not fall when the fidelity that is requested for an application rises,
nor does the best count for any four traces. -/
theorem gateCount_monotone :
    (∀ tr : Vector (Cx ℝ) 4, MonotoneOn (bestCount tr) (Set.Icc 0 1)) ∧
      ∀ {d : Decomposer ℝ} {u : Mat4 ℝ} {r r₁ r₂ : Request ℝ} {f₁ f₂ : ℝ} {n₁ n₂ : Fin 4},
        r.withFidelity f₁ = .ok r₁ → r.withFidelity f₂ = .ok r₂ → f₁ ≤ f₂ → d.gateCount u r₁ = .ok n₁ →
          d.gateCount u r₂ = .ok n₂ → n₁ ≤ n₂ := by
  refine ⟨fun tr f inside g _ better => bestCount_mono tr inside.1 better, ?_⟩
  intro d u r r₁ r₂ f₁ f₂ n₁ n₂ first second better counted counted'
  obtain ⟨⟨nonnegative, -⟩, rfl⟩ := Request.withFidelity_eq_ok.mp first
  obtain ⟨-, rfl⟩ := Request.withFidelity_eq_ok.mp second
  cases given : r.uses with
  | some n =>
    -- a count that is given is announced at every fidelity
    simp only [gateCount, given] at counted counted'
    exact (Except.ok.inj (counted.symm.trans counted')).le
  | none =>
    obtain ⟨form, canonical, rfl⟩ := gateCount_eq_ok (r := { r with fidelity := some f₁ }) given counted
    obtain ⟨form', canonical', rfl⟩ := gateCount_eq_ok (r := { r with fidelity := some f₂ }) given counted'
    obtain rfl := Except.ok.inj (canonical.symm.trans canonical')
    have effective (f : ℝ) :
        d.effectiveFidelity { r with fidelity := some f } = if r.approximate then f else Scalar.ofNat 1 := rfl
    rw [effective, effective]
    split
    · exact bestCount_mono _ nonnegative better
    · exact le_rfl

/-- From a gate that is lost altogether to one without loss, the count rises from none to two. -/
theorem gateCount_monotone_axial :
    (exactControlledNot .off).gateCount (axial (1 / 2)) ⟨true, some 0, none⟩ = .ok 0 ∧
      (exactControlledNot .off).gateCount (axial (1 / 2)) ⟨true, some 1, none⟩ = .ok 2 ∧ (0 : Fin 4) ≤ 2 := by
  have quarter : (1 / 2 : ℝ) < Real.pi / 4 := by linarith [Real.pi_gt_three]
  have read := Weyl.coordinates_axial (t := 1 / 2) (by norm_num) quarter.le
  have still : (exactControlledNot .off).gateCount (axial (1 / 2)) ⟨true, some 0, none⟩ = .ok 0 := by
    rw [gateCount, read]
    exact congrArg Except.ok (bestCount_lost _)
  have two : (exactControlledNot .off).gateCount (axial (1 / 2)) ⟨true, some 1, none⟩ = .ok 2 := by
    rw [gateCount, read]
    exact congrArg Except.ok (bestCount_axial (by norm_num) quarter)
  exact ⟨still, two, gateCount_monotone.2 (r := .default) (Request.withFidelity_eq_ok.mpr ⟨⟨le_rfl, zero_le_one⟩, rfl⟩)
    (Request.withFidelity_eq_ok.mpr ⟨⟨zero_le_one, le_rfl⟩, rfl⟩) zero_le_one still two⟩

end Decomposer

end Entangle.Synthesis

end
