import Mathlib
import Entangle.Proofs.EntanglingGates
import Entangle.Proofs.ExactSynthesis

/-!
# The announced count of entangling gates

The count that is announced for a unitary is read off its canonical form, and the count of a synthesis off
the form that is fitted to a symmetry class. The two are the same where the count is given, and where the
fit is perfect. A fit that moves the angles can save gates that were announced.
-/

noncomputable section

namespace Entangle

open Complex
open Circuit (Sequence)
open Weyl (Decomposition Form Fitted axial canonicalTrace traceFidelity)

/-! ## The angles behind both counts -/

namespace Weyl

variable {u : Mat4 ℝ} {f : Form ℝ} {o : Options ℝ} {target : Decomposition ℝ}

/-- A decomposition has the angles of the fit to the class of its options, and its fidelity. -/
theorem ofForm_eq_ok (decomposed : Decomposition.ofForm u f o = .ok target) :
    ∃ fit : Fitted ℝ, f.fit (o.classFor f) = .ok fit ∧ target.calculated = traceFidelity fit.trace ∧
      target.a = fit.form.a ∧ target.b = fit.form.b ∧ target.c = fit.form.c := by
  obtain ⟨fit, fitted, rest⟩ := bind_eq_ok.mp (Outcome.step_eq_ok.mp decomposed)
  dsimp only at rest
  split at rest
  · cases rest
  · obtain rfl := Except.ok.inj rest
    exact ⟨fit, fitted, rfl, rfl, rfl, rfl⟩

theorem ofUnitary_eq_ok : Decomposition.ofUnitary u o = .ok target ↔
    ∃ f, canonicalForm u = .ok f ∧ Decomposition.ofForm u f o = .ok target :=
  bind_eq_ok

/-- The angles of a decomposition are in the chamber. -/
theorem ofUnitary_chamber (decomposed : Decomposition.ofUnitary u o = .ok target) :
    target.a ≤ Real.pi / 4 ∧ target.b ≤ target.a ∧ |target.c| ≤ target.b := by
  obtain ⟨f, canonical, kept⟩ := ofUnitary_eq_ok.mp decomposed
  obtain ⟨fit, fits, -, a, b, c⟩ := ofForm_eq_ok kept
  obtain ⟨first, second, third⟩ := fit_inChamber (canonicalForm_inChamber canonical) fits
  rw [a, b, c]
  exact ⟨first, second, third⟩

/-- The coordinates are the angles of the canonical form. -/
theorem coordinates_eq_ok {a b c : ℝ} (read : coordinates u = .ok (a, b, c)) :
    ∃ f, canonicalForm u = .ok f ∧ a = f.a ∧ b = f.b ∧ c = f.c := by
  obtain ⟨dec, decomposed, result⟩ := bind_eq_ok.mp read
  obtain ⟨f, canonical, kept⟩ := ofUnitary_eq_ok.mp decomposed
  obtain ⟨dec', kept', same⟩ := ofForm_withoutFidelity u f
  obtain rfl := Except.ok.inj (kept.symm.trans kept')
  obtain ⟨rfl, second, third⟩ : dec.a = a ∧ dec.b = b ∧ dec.c = c := by simpa using Except.ok.inj result
  refine ⟨f, canonical, ?_⟩
  rw [← second, ← third, ← same]
  exact ⟨rfl, rfl, rfl⟩

end Weyl

namespace Synthesis

theorem bestCount_congr {tr tr' : Vector (Cx ℝ) 4} (same : ∀ n, traceFidelity (tr.get n) = traceFidelity (tr'.get n))
    (fidelity : ℝ) : bestCount tr fidelity = bestCount tr' fidelity := by
  have values : expected tr fidelity = expected tr' fidelity := by
    funext n
    rw [expected, expected, expectedFidelity, expectedFidelity, same]
  change ((List.finRange 4).foldl (fun best i => if best.2 < expected tr fidelity i then (i, expected tr fidelity i)
    else best) _).1 = _
  rw [values]
  rfl

theorem traces_get (a b c basisB : ℝ) :
    (traces a b c basisB).get 0 = canonicalTrace a b c ∧
      (traces a b c basisB).get 1 = canonicalTrace (Real.pi / 4 - a) (basisB - b) c ∧
      (traces a b c basisB).get 2 = ⟨4 * Real.cos c, 0⟩ ∧ (traces a b c basisB).get 3 = 4 := by
  rw [← Exact.quarterPi_eq]
  refine ⟨rfl, rfl, ?_, rfl⟩
  exact Cx.ext rfl Exact.zero_eq

/-- The fidelities of the circuits with none to three entangling gates. -/
theorem traceFidelity_traces (a b c basisB : ℝ) :
    traceFidelity ((traces a b c basisB).get 0) =
        (4 + 16 * ((Real.cos a * Real.cos b * Real.cos c) ^ 2 + (Real.sin a * Real.sin b * Real.sin c) ^ 2)) / 20 ∧
      traceFidelity ((traces a b c basisB).get 1) =
        (4 + 16 * ((Real.cos (Real.pi / 4 - a) * Real.cos (basisB - b) * Real.cos c) ^ 2 +
          (Real.sin (Real.pi / 4 - a) * Real.sin (basisB - b) * Real.sin c) ^ 2)) / 20 ∧
      traceFidelity ((traces a b c basisB).get 2) = (4 + 16 * Real.cos c ^ 2) / 20 ∧
      traceFidelity ((traces a b c basisB).get 3) = 1 := by
  obtain ⟨none, one, two, three⟩ := traces_get a b c basisB
  rw [none, one, two, three, Weyl.traceFidelity_canonicalTrace, Weyl.traceFidelity_canonicalTrace, Weyl.traceFidelity_eq,
    Weyl.traceFidelity_eq, Cx.toComplex_ofNat, Cx.toComplex_mk, Complex.ofReal_zero, zero_mul, add_zero, Complex.norm_real,
    Real.norm_eq_abs, sq_abs]
  refine ⟨rfl, rfl, by ring, ?_⟩
  norm_num

/-- The sense of the third angle does not matter for them. -/
theorem traceFidelity_traces_neg (a b c basisB : ℝ) (n : Fin 4) :
    traceFidelity ((traces a b (-c) basisB).get n) = traceFidelity ((traces a b c basisB).get n) := by
  obtain ⟨none, one, two, three⟩ := traceFidelity_traces a b c basisB
  obtain ⟨none', one', two', three'⟩ := traceFidelity_traces a b (-c) basisB
  rw [Real.cos_neg, Real.sin_neg, mul_neg, neg_sq] at none' one'
  rw [Real.cos_neg] at two'
  rcases Decomposer.uses_cases n with rfl | rfl | rfl | rfl
  · rw [none, none']
  · rw [one, one']
  · rw [two, two']
  · rw [three, three']

theorem expected_lossless (tr : Vector (Cx ℝ) 4) (n : Fin 4) : expected tr 1 n = traceFidelity (tr.get n) := by
  rw [expected, expectedFidelity, Exact.pow_eq, Exact.ofNat_eq, Real.rpow_natCast, one_pow, mul_one]

theorem expected_lossless_nonneg (tr : Vector (Cx ℝ) 4) (n : Fin 4) : 0 ≤ expected tr 1 n := by
  rw [expected_lossless, Weyl.traceFidelity_eq]
  positivity

/-- Without loss, the count with the highest fidelity is found, and the first of equals. -/
theorem bestCount_lossless {tr : Vector (Cx ℝ) 4} {n : Fin 4}
    (most : ∀ m, traceFidelity (tr.get m) ≤ traceFidelity (tr.get n))
    (first : ∀ m < n, traceFidelity (tr.get m) < traceFidelity (tr.get n)) : bestCount tr 1 = n := by
  obtain ⟨most', first'⟩ := bestCount_leads (expected_lossless_nonneg tr)
  simp only [expected_lossless] at most' first'
  rcases lt_trichotomy (bestCount tr 1) n with before | same | after
  · exact absurd (first _ before) (not_lt.mpr (most' n))
  · exact same
  · exact absurd (first' n after) (not_lt.mpr (most _))

/-- A third angle in the chamber costs every circuit with fewer than three gates. -/
theorem cos_sin_products_lt {c : ℝ} (nonzero : c ≠ 0) (small : |c| ≤ Real.pi / 4) (x y : ℝ) :
    (Real.cos x * Real.cos y * Real.cos c) ^ 2 + (Real.sin x * Real.sin y * Real.sin c) ^ 2 < 1 := by
  obtain ⟨lower, upper⟩ := abs_le.mp small
  have pi := Real.pi_pos
  have sine : 0 < Real.sin c ^ 2 := by
    have away : Real.sin c ≠ 0 := fun zero =>
      nonzero ((Real.sin_eq_zero_iff_of_lt_of_lt (by linarith) (by linarith)).mp zero)
    positivity
  have half : Real.sin c ^ 2 ≤ Real.cos c ^ 2 := by
    have double := Real.cos_nonneg_of_neg_pi_div_two_le_of_le (x := 2 * c) (by linarith) (by linarith)
    rw [Real.cos_two_mul'] at double
    linarith
  have circle := Real.sin_sq_add_cos_sq c
  have circleX := Real.sin_sq_add_cos_sq x
  have first : (Real.cos x * Real.cos y * Real.cos c) ^ 2 ≤ Real.cos x ^ 2 * Real.cos c ^ 2 := by
    rw [mul_pow, mul_pow]
    exact mul_le_mul_of_nonneg_right (mul_le_of_le_one_right (sq_nonneg _) (Real.cos_sq_le_one y)) (sq_nonneg _)
  have second : (Real.sin x * Real.sin y * Real.sin c) ^ 2 ≤ Real.sin x ^ 2 * Real.cos c ^ 2 := by
    rw [mul_pow, mul_pow]
    exact mul_le_mul (mul_le_of_le_one_right (sq_nonneg _) (Real.sin_sq_le_one y)) half sine.le (sq_nonneg _)
  calc
    _ ≤ Real.cos x ^ 2 * Real.cos c ^ 2 + Real.sin x ^ 2 * Real.cos c ^ 2 := add_le_add first second
    _ = Real.cos c ^ 2 := by
      rw [← add_mul, add_comm, circleX, one_mul]
    _ < 1 := by linarith

/-- Without loss, three gates are the best exactly for the interactions with a third angle, whatever the second angle of
the gate is. -/
theorem bestCount_eq_three_iff {a b c : ℝ} (small : |c| ≤ Real.pi / 4) (basisB : ℝ) :
    bestCount (traces a b c basisB) 1 = 3 ↔ c ≠ 0 := by
  obtain ⟨none, one, two, three⟩ := traceFidelity_traces a b c basisB
  constructor
  · rintro best rfl
    obtain ⟨-, first⟩ := bestCount_leads (expected_lossless_nonneg (traces a b 0 basisB))
    have less := first 2 (by rw [best]; decide)
    rw [best, expected_lossless, expected_lossless, two, three, Real.cos_zero] at less
    norm_num at less
  · intro nonzero
    have below : ∀ m < (3 : Fin 4), traceFidelity ((traces a b c basisB).get m) < traceFidelity ((traces a b c basisB).get 3) := by
      intro m before
      rw [three]
      rcases Decomposer.uses_cases m with rfl | rfl | rfl | rfl
      · rw [none]
        linarith [cos_sin_products_lt nonzero small a b]
      · rw [one]
        linarith [cos_sin_products_lt nonzero small (Real.pi / 4 - a) (basisB - b)]
      · rw [two]
        have bound := cos_sin_products_lt nonzero small 0 0
        simp only [Real.cos_zero, Real.sin_zero, one_mul, zero_mul] at bound
        linarith
      · exact absurd before (lt_irrefl _)
    refine bestCount_lossless (fun m => ?_) below
    rcases eq_or_ne m 3 with rfl | other
    · exact le_rfl
    · exact (below m (lt_of_le_of_ne (Fin.le_last m) other)).le

/-- An interaction about one axis needs two controlled gates. -/
theorem bestCount_axial {t : ℝ} (positive : 0 < t) (small : t < Real.pi / 4) : bestCount (traces t 0 0 0) 1 = 2 := by
  obtain ⟨none, one, two, three⟩ := traceFidelity_traces t 0 0 0
  simp only [sub_zero, Real.cos_zero, Real.sin_zero, mul_one, mul_zero, one_pow] at none one two
  have sine := Real.sin_pos_of_pos_of_lt_pi positive (by linarith)
  have sine' := Real.sin_pos_of_pos_of_lt_pi (sub_pos.mpr small) (by linarith)
  have circle := Real.sin_sq_add_cos_sq t
  have circle' := Real.sin_sq_add_cos_sq (Real.pi / 4 - t)
  have below : traceFidelity ((traces t 0 0 0).get 0) < traceFidelity ((traces t 0 0 0).get 2) := by
    rw [none, two]
    nlinarith
  have below' : traceFidelity ((traces t 0 0 0).get 1) < traceFidelity ((traces t 0 0 0).get 2) := by
    rw [one, two]
    nlinarith
  have equal : traceFidelity ((traces t 0 0 0).get 3) = traceFidelity ((traces t 0 0 0).get 2) := by
    rw [two, three]
    norm_num
  apply bestCount_lossless
  · intro m
    rcases Decomposer.uses_cases m with rfl | rfl | rfl | rfl
    · exact below.le
    · exact below'.le
    · exact le_rfl
    · exact equal.le
  · intro m before
    rcases Decomposer.uses_cases m with rfl | rfl | rfl | rfl
    · exact below
    · exact below'
    · exact absurd before (lt_irrefl _)
    · exact absurd before (by decide)

/-- No interaction needs none. -/
theorem bestCount_still : bestCount (traces (0 : ℝ) 0 0 0) 1 = 0 := by
  obtain ⟨none, one, two, three⟩ := traceFidelity_traces 0 0 0 0
  simp only [sub_zero, Real.cos_zero, Real.sin_zero, mul_one, mul_zero, one_pow] at none one two
  apply bestCount_lossless
  · intro m
    rcases Decomposer.uses_cases m with rfl | rfl | rfl | rfl
    · exact le_rfl
    · rw [none, one]
      nlinarith [Real.cos_sq_le_one (Real.pi / 4)]
    · rw [none, two]
      norm_num
    · rw [none, three]
      norm_num
  · intro m before
    exact absurd before (Fin.not_lt_zero m)

namespace Decomposer

variable {d : Decomposer ℝ} {u : Mat4 ℝ} {r : Request ℝ} {n : Fin 4} {s : Sequence ℝ}

/-- Without a given count, the announced one is the best for the angles of the canonical form. -/
theorem gateCount_eq_ok (free : r.uses = none) (counted : d.gateCount u r = .ok n) :
    ∃ f, Weyl.canonicalForm u = .ok f ∧ n = bestCount (traces f.a f.b f.c d.basis.b) (d.effectiveFidelity r) := by
  rw [gateCount, free] at counted
  obtain ⟨⟨a, b, c⟩, read, result⟩ := bind_eq_ok.mp counted
  obtain ⟨f, canonical, rfl, rfl, rfl⟩ := Weyl.coordinates_eq_ok (Outcome.step_eq_ok.mp read)
  exact ⟨f, canonical, (Except.ok.inj result).symm⟩

/-- A synthesis has the count of entangling gates that is chosen for the fitted target. Where the count is
given, or the fit is perfect, this is the announced count. -/
theorem gateCount_uses (counted : d.gateCount u r = .ok n) (synthesized : d.synthesize u r = .ok s) :
    ∃ target, Decomposition.ofUnitary u .default = .ok target ∧ s.Uses d.gate (d.countFor target r) ∧
      (r.uses.isSome ∨ target.calculated = 1 → s.Uses d.gate n) := by
  obtain ⟨target, fitted, realized⟩ := synthesize_eq_ok.mp synthesized
  have uses := uses_realize realized
  refine ⟨target, fitted, uses, fun condition => ?_⟩
  suffices same : n = d.countFor target r from same ▸ uses
  cases given : r.uses with
  | some m =>
    rw [gateCount, given] at counted
    rw [countFor, given]
    exact (Except.ok.inj counted).symm
  | none =>
    have perfect : target.calculated = 1 := by simpa [given] using condition
    obtain ⟨f, canonical, rfl⟩ := gateCount_eq_ok given counted
    obtain ⟨f', canonical', decomposed⟩ := Weyl.ofUnitary_eq_ok.mp fitted
    obtain rfl := Except.ok.inj (canonical.symm.trans canonical')
    obtain ⟨fit, fits, calculated, a, b, c⟩ := Weyl.ofForm_eq_ok decomposed
    obtain ⟨first, second, third⟩ := Weyl.fit_perfect (Weyl.canonicalForm_inChamber canonical) fits (calculated ▸ perfect)
    rw [countFor, given, Option.getD_none, tracesFor, a, b, c, first, second]
    rcases third with kept | turned
    · rw [kept]
    · rw [turned]
      exact (bestCount_congr (traceFidelity_traces_neg _ _ _ _) _).symm

theorem gateCount_uses_given :
    (exactControlledNot .off).gateCount (axial (1 / 2)) ⟨true, none, some 2⟩ = .ok 2 ∧
      ∃ s, (exactControlledNot .off).synthesize (axial (1 / 2)) ⟨true, none, some 2⟩ = .ok s ∧
        s.Uses (.standard .cx) 2 := by
  have counted : (exactControlledNot .off).gateCount (axial (1 / 2)) ⟨true, none, some 2⟩ = .ok 2 := rfl
  obtain ⟨target, fitted, -, fits⟩ := Weyl.ofUnitary_fits (Weyl.axial_unitary (1 / 2))
    (Weyl.diagonalize_axial (by norm_num) (by linarith [Real.pi_gt_three])) (Weyl.axialDiagonalization_orthogonal (1 / 2))
    (Weyl.matrix_axialDiagonalization (1 / 2)) (by norm_num : (0.999999999 : ℝ) ≤ 1)
  obtain ⟨s, -, synthesized, -⟩ := synthesize_near (exactControlledNot_exactBasis .off) rfl rfl fitted fits.factored
    ⟨true, none, some 2⟩
  obtain ⟨_, -, -, agrees⟩ := gateCount_uses counted synthesized
  exact ⟨counted, s, synthesized, agrees (.inl rfl)⟩

/-- Two gates are announced for an interaction about one axis. -/
theorem gateCount_axial {t : ℝ} (positive : 0 < t) (small : t < Real.pi / 4) (mode : PulseMode) :
    (exactControlledNot mode).gateCount (axial t) .default = .ok 2 := by
  have fidelity : (exactControlledNot mode).effectiveFidelity .default = 1 := Exact.one_eq
  rw [gateCount, fidelity, Weyl.coordinates_axial positive.le small.le]
  exact congrArg Except.ok (bestCount_axial positive small)

/-- None is needed for a target without interaction. -/
theorem countFor_still {target : Decomposition ℝ} (a : target.a = 0) (b : target.b = 0) (c : target.c = 0)
    (mode : PulseMode) : (exactControlledNot mode).countFor target .default = 0 := by
  have fidelity : (exactControlledNot mode).effectiveFidelity .default = 1 := Exact.one_eq
  change bestCount (traces target.a target.b target.c 0) _ = 0
  rw [a, b, c, fidelity]
  exact bestCount_still

/-- Of the two gates that are announced for a tiny interaction, the synthesis has none. -/
theorem gateCount_exceeds_uses :
    (exactControlledNot .off).gateCount (axial 1e-5) .default = .ok 2 ∧
      ∃ s, (exactControlledNot .off).synthesize (axial 1e-5) .default = .ok s ∧ s.Uses (.standard .cx) 0 := by
  refine ⟨gateCount_axial (by norm_num) (by norm_num; linarith [Real.pi_gt_three]) .off, ?_⟩
  obtain ⟨target, fitted, fits, -, a, b, c⟩ := Weyl.ofUnitary_axial (t := 1e-5) (by norm_num) (by norm_num)
  obtain ⟨s, -, synthesized, -⟩ := synthesize_near (exactControlledNot_exactBasis .off) rfl rfl fitted fits.factored
    .default
  obtain ⟨target', fitted', realized⟩ := synthesize_eq_ok.mp synthesized
  obtain rfl := Except.ok.inj (fitted.symm.trans fitted')
  have uses := uses_realize realized
  rw [countFor_still a b c] at uses
  exact ⟨s, synthesized, uses⟩

end Decomposer

end Synthesis

end Entangle

end
