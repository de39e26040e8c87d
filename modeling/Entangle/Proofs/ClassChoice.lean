import Mathlib
import Entangle.Proofs.ChamberAngles
import Entangle.Proofs.ClassFit

/-!
# The class of a decomposition

The class that a form is fitted to is the first one with a point within the requested fidelity, so that
the fitted form reaches the fidelity. It lies in the chamber and has unitary factors where the form does.
What the fit loses is therefore known: the distance of the decomposition from the unitary is a function
of the fidelity that it reports.
-/

noncomputable section

namespace Entangle.Weyl

open Matrix Complex

variable {f : Form ℝ} {fit : Fitted ℝ} {k : Class}

theorem Form.InChamber.nonneg (chamber : f.InChamber) : 0 ≤ f.b := (abs_nonneg f.c).trans chamber.third

/-! ## The fitted form -/

open Mat2 Gate in
/-- Every class keeps the inner factors unitary, and of the outer ones what unitary factors on the right keep. -/
theorem fit_outerHas {outer : Mat2 ℝ → Prop} (kept : KeptByUnitaries outer) (given : f.OuterHas outer)
    (fitted : f.fit k = .ok fit) : fit.form.OuterHas outer := by
  obtain ⟨outerL, outerR, innerL, innerR⟩ := given
  have one : (Square.identity : Mat2 ℝ).Unitary := Square.identity_unitary
  have turnX := rxMatrix_unitary
  have turnY := ryMatrix_unitary
  have turnZ := rzMatrix_unitary
  have flip := ipz_unitary
  cases k with
  | general =>
    obtain rfl := Except.ok.inj fitted
    exact ⟨outerL, outerR, innerL, innerR⟩
  | identity =>
    obtain rfl := Except.ok.inj fitted
    exact ⟨kept.mul outerL innerL, kept.mul outerR innerR, one, one⟩
  | swap =>
    obtain rfl := Except.ok.inj fitted
    unfold toSwap
    split
    · exact ⟨kept.mul outerL innerR, kept.mul outerR innerL, one, one⟩
    · exact ⟨kept.mul (kept.mul outerL flip) innerR, kept.mul (kept.mul outerR flip) innerL, one, one⟩
  | partialSwap =>
    obtain rfl := Except.ok.inj fitted
    exact ⟨kept.mul outerL innerL, kept.mul outerR innerL, one, unitary_mul (unitary_dagger innerL) innerR⟩
  | partialSwapFlip =>
    obtain rfl := Except.ok.inj fitted
    exact ⟨kept.mul outerL innerL, kept.mul (kept.mul (kept.mul outerR flip) innerL) flip, one,
      unitary_mul (unitary_mul (unitary_mul flip (unitary_dagger innerL)) flip) innerR⟩
  | controlled =>
    rw [Form.fit, toControlled, ofUnitary_eq, ofUnitary_eq] at fitted
    obtain rfl := Except.ok.inj fitted
    exact ⟨kept.mul outerL (turnX _), kept.mul outerR (turnX _), unitary_mul (turnY _) (turnX _),
      unitary_mul (turnY _) (turnX _)⟩
  | mirrorControlled =>
    rw [Form.fit, toMirrorControlled, ofUnitary_eq, ofUnitary_eq] at fitted
    obtain rfl := Except.ok.inj fitted
    exact ⟨kept.mul outerL (turnZ _), kept.mul outerR (turnZ _), unitary_mul (turnY _) (turnZ _),
      unitary_mul (turnY _) (turnZ _)⟩
  | aab =>
    rw [Form.fit, toAab, ofUnitary_eq] at fitted
    obtain rfl := Except.ok.inj fitted
    exact ⟨kept.mul outerL (turnZ _), kept.mul outerR (turnZ _), unitary_mul (turnY _) (turnZ _),
      unitary_mul (turnZ _) innerR⟩
  | abb =>
    rw [Form.fit, toAbb, ofUnitary_eq] at fitted
    obtain rfl := Except.ok.inj fitted
    exact ⟨kept.mul outerL (turnX _), kept.mul outerR (turnX _), unitary_mul (turnY _) (turnX _),
      unitary_mul (turnX _) innerR⟩
  | abmb =>
    rw [Form.fit, toAbmb, ofUnitary_eq] at fitted
    obtain rfl := Except.ok.inj fitted
    exact ⟨kept.mul outerL (turnX _), kept.mul (kept.mul (kept.mul outerR flip) (turnX _)) flip,
      unitary_mul (turnY _) (turnX _), unitary_mul (unitary_mul (unitary_mul flip (turnX _)) flip) innerR⟩

/-- Every class keeps the factors unitary. -/
theorem fit_factored (factored : f.Factored) (fitted : f.fit k = .ok fit) : fit.form.Factored := by
  have kept := fit_outerHas keptByUnitaries_unitary factored.outerHas fitted
  exact kept.factored

/-! ## The angles of a class -/

/-- The point of a class that angles are moved to. -/
def Class.point (k : Class) (a b c : ℝ) : ℝ × ℝ × ℝ :=
  match k with
  | .general => (a, b, c)
  | .identity => (0, 0, 0)
  | .swap => (Real.pi / 4, Real.pi / 4, Real.pi / 4)
  | .partialSwap => (closestPartialSwap a b c, closestPartialSwap a b c, closestPartialSwap a b c)
  | .partialSwapFlip => (closestPartialSwap a b (-c), closestPartialSwap a b (-c), -closestPartialSwap a b (-c))
  | .controlled => (a, 0, 0)
  | .mirrorControlled => (Real.pi / 4, Real.pi / 4, c)
  | .aab => ((a + b) / 2, (a + b) / 2, c)
  | .abb => (a, (b + c) / 2, (b + c) / 2)
  | .abmb => (a, (b - c) / 2, -((b - c) / 2))

/-- What fitting does: the angles move to the point of the class, and the trace is that of their differences, unless
the form is turned over on its way to the swap. -/
theorem fit_moves (fitted : f.fit k = .ok fit) :
    (fit.form.a, fit.form.b, fit.form.c) = k.point f.a f.b f.c ∧
      (fit.trace = canonicalTrace (f.a - fit.form.a) (f.b - fit.form.b) (f.c - fit.form.c) ∨
        k = .swap ∧ fit.trace = canonicalTrace (fit.form.a - f.a) (f.b - fit.form.b) (-f.c - fit.form.c)) := by
  cases k with
  | general | partialSwap | partialSwapFlip =>
    obtain rfl := Except.ok.inj fitted
    exact ⟨rfl, .inl rfl⟩
  | identity =>
    obtain rfl := Except.ok.inj fitted
    refine ⟨?_, .inl rfl⟩
    simp only [toIdentity, Form.fittedTo, Exact.zero_eq]
    rfl
  | swap =>
    obtain rfl := Except.ok.inj fitted
    unfold toSwap
    split
    · refine ⟨?_, .inl rfl⟩
      simp only [Form.fittedTo, Exact.quarterPi_eq]
      rfl
    · have first : Real.pi / 2 - f.a - Real.pi / 4 = Real.pi / 4 - f.a := by ring
      rw [Exact.quarterPi_eq, Exact.halfPi_eq]
      dsimp only
      rw [first]
      exact ⟨rfl, .inr ⟨rfl, rfl⟩⟩
  | controlled =>
    rw [Form.fit, toControlled, ofUnitary_eq, ofUnitary_eq] at fitted
    obtain rfl := Except.ok.inj fitted
    refine ⟨?_, .inl rfl⟩
    simp only [Form.fittedTo, Exact.zero_eq]
    rfl
  | mirrorControlled =>
    rw [Form.fit, toMirrorControlled, ofUnitary_eq, ofUnitary_eq] at fitted
    obtain rfl := Except.ok.inj fitted
    refine ⟨?_, .inl rfl⟩
    simp only [Form.fittedTo, Exact.quarterPi_eq]
    rfl
  | aab =>
    rw [Form.fit, toAab, ofUnitary_eq] at fitted
    obtain rfl := Except.ok.inj fitted
    refine ⟨?_, .inl rfl⟩
    simp only [Form.fittedTo, Exact.numeral_eq]
    rfl
  | abb =>
    rw [Form.fit, toAbb, ofUnitary_eq] at fitted
    obtain rfl := Except.ok.inj fitted
    refine ⟨?_, .inl rfl⟩
    simp only [Form.fittedTo, Exact.numeral_eq]
    rfl
  | abmb =>
    rw [Form.fit, toAbmb, ofUnitary_eq] at fitted
    obtain rfl := Except.ok.inj fitted
    refine ⟨?_, .inl rfl⟩
    simp only [Form.fittedTo, Exact.numeral_eq]
    rfl

/-- The closest partial swap of angles in the chamber lies between zero and the first of them. -/
theorem closestPartialSwap_mem {a b c : ℝ} (first : a ≤ Real.pi / 4) (second : b ≤ a) (third : |c| ≤ b) :
    0 ≤ closestPartialSwap a b c ∧ closestPartialSwap a b c ≤ a := by
  have few : Real.pi ≤ 3.15 := Real.pi_lt_d2.le
  obtain ⟨lower, upper⟩ := abs_le.mp third
  -- in terms of the gaps between the angles
  obtain ⟨p, rfl⟩ : ∃ p, a = b + p := ⟨a - b, by ring⟩
  obtain ⟨q, rfl⟩ : ∃ q, c = b - q := ⟨b - c, by ring⟩
  have p0 : 0 ≤ p := by linarith
  have q0 : 0 ≤ q := by linarith
  have wide : 2 * p + q ≤ 1.575 := by linarith
  have size : 6 + 2 * (p ^ 2 + p * q + q ^ 2) ≤ 11 := by nlinarith
  have value : closestPartialSwap (b + p) b (b - q) =
      b + (p - q) / 3 - (2 * p + q) * (q - p) * (p + 2 * q) * (6 + 2 * (p ^ 2 + p * q + q ^ 2)) / 486 := by
    simp only [closestPartialSwap, Exact.numeral_eq]
    ring
  have below : (q - p) * (p + 2 * q) * (6 + 2 * (p ^ 2 + p * q + q ^ 2)) ≤ 81 := by
    have factor : (q - p) * (p + 2 * q) ≤ 5 := by nlinarith
    nlinarith [mul_nonneg p0 q0]
  have above : -162 ≤ (q - p) * (p + 2 * q) * (6 + 2 * (p ^ 2 + p * q + q ^ 2)) := by
    have factor : -5 ≤ (q - p) * (p + 2 * q) := by nlinarith
    nlinarith [mul_nonneg p0 q0]
  have gap : 0 ≤ 2 * p + q := by linarith
  rw [value]
  constructor
  · nlinarith
  · nlinarith

/-- The point of a class has its angles in the chamber, as the angles that are moved to it. -/
theorem Class.point_mem (k : Class) {a b c : ℝ} (first : a ≤ Real.pi / 4) (second : b ≤ a) (third : |c| ≤ b) :
    (k.point a b c).1 ≤ Real.pi / 4 ∧ (k.point a b c).2.1 ≤ (k.point a b c).1 ∧ |(k.point a b c).2.2| ≤ (k.point a b c).2.1 := by
  have positive := Real.pi_pos
  have nonneg : 0 ≤ b := (abs_nonneg c).trans third
  obtain ⟨lower, upper⟩ := abs_le.mp third
  cases k with
  | general => exact ⟨first, second, third⟩
  | identity => exact ⟨by dsimp only [point]; linarith, le_rfl, abs_zero.le⟩
  | swap => exact ⟨le_rfl, le_rfl, (abs_of_pos (by dsimp only [point]; linarith)).le⟩
  | partialSwap =>
    obtain ⟨above, below⟩ := closestPartialSwap_mem first second third
    exact ⟨below.trans first, le_rfl, (abs_of_nonneg above).le⟩
  | partialSwapFlip =>
    obtain ⟨above, below⟩ := closestPartialSwap_mem first second ((abs_neg c).trans_le third)
    exact ⟨below.trans first, le_rfl, (abs_neg _).trans_le (abs_of_nonneg above).le⟩
  | controlled => exact ⟨first, by dsimp only [point]; linarith, abs_zero.le⟩
  | mirrorControlled => exact ⟨le_rfl, le_rfl, third.trans (second.trans first)⟩
  | aab => exact ⟨by dsimp only [point]; linarith, le_rfl, by dsimp only [point]; linarith⟩
  | abb | abmb => exact ⟨first, by dsimp only [point]; linarith, by dsimp only [point]; exact abs_le.mpr ⟨by linarith, by linarith⟩⟩

/-- Every class keeps the angles in the chamber. -/
theorem fit_inChamber (chamber : f.InChamber) (fitted : f.fit k = .ok fit) : fit.form.InChamber := by
  obtain ⟨moved, -⟩ := fit_moves fitted
  obtain ⟨first, second, third⟩ := k.point_mem chamber.first chamber.second chamber.third
  rw [← moved] at first second third
  exact ⟨first, second, third⟩

/-! ## The fidelity of the class that is chosen -/

theorem traceFidelity_eq (z : Cx ℝ) : traceFidelity z = (4 + ‖z.toComplex‖ ^ 2) / 20 := by
  simp only [traceFidelity, Cx.abs_eq, Exact.numeral_eq, pow_two]

theorem norm_sq_canonicalTrace (a b c : ℝ) : ‖(canonicalTrace a b c).toComplex‖ ^ 2 =
    16 * ((Real.cos a * Real.cos b * Real.cos c) ^ 2 + (Real.sin a * Real.sin b * Real.sin c) ^ 2) := by
  have parts : (canonicalTrace a b c).toComplex = ((4 * (Real.cos a * Real.cos b * Real.cos c) : ℝ) : ℂ) +
      ((4 * (Real.sin a * Real.sin b * Real.sin c) : ℝ) : ℂ) * I := by
    rw [toComplex_canonicalTrace, trace_coupling]
    push_cast
    simp only [angles]
    ring
  rw [parts, Complex.sq_norm, Complex.normSq_add_mul_I]
  ring

theorem traceFidelity_canonicalTrace (a b c : ℝ) :
    traceFidelity (canonicalTrace a b c) =
      (4 + 16 * ((Real.cos a * Real.cos b * Real.cos c) ^ 2 + (Real.sin a * Real.sin b * Real.sin c) ^ 2)) / 20 := by
  rw [traceFidelity_eq, norm_sq_canonicalTrace]

theorem angles_eta (θ : Axis → ℝ) : angles (θ .x) (θ .y) (θ .z) = θ := by
  funext k
  cases k <;> rfl

/-- Of the two swap points, the one with the sign of the third angle is the nearer one. -/
theorem swap_gap (a b c : ℝ) :
    traceFidelity (canonicalTrace a b (c - Real.pi / 4)) - traceFidelity (canonicalTrace a b (c + Real.pi / 4)) =
      4 / 5 * (Real.cos (a + b) * Real.cos (a - b)) * Real.sin (2 * c) := by
  have square : √2 * √2 = 2 := Real.mul_self_sqrt (by norm_num)
  rw [traceFidelity_canonicalTrace, traceFidelity_canonicalTrace, Real.cos_add a, Real.cos_sub a, Real.sin_two_mul,
    Real.cos_sub c, Real.cos_add c, Real.sin_sub c, Real.sin_add c, Real.cos_pi_div_four, Real.sin_pi_div_four]
  linear_combination 4 / 5 * (Real.cos a ^ 2 * Real.cos b ^ 2 - Real.sin a ^ 2 * Real.sin b ^ 2) * Real.sin c *
    Real.cos c * square

theorem toSwap_reaches (chamber : f.InChamber) {fidelity : ℝ}
    (near : fidelity ≤ traceFidelity (canonicalTrace (f.a - Real.pi / 4) (f.b - Real.pi / 4) (f.c - Real.pi / 4)) ∨
      fidelity ≤ traceFidelity (canonicalTrace (f.a - Real.pi / 4) (f.b - Real.pi / 4) (f.c + Real.pi / 4))) :
    fidelity ≤ traceFidelity (toSwap f).trace := by
  have positive := Real.pi_pos
  have nonneg := chamber.nonneg
  obtain ⟨first, second, third⟩ := chamber
  obtain ⟨lower, upper⟩ := abs_le.mp third
  have gap := swap_gap (f.a - Real.pi / 4) (f.b - Real.pi / 4) f.c
  have factor : 0 ≤ Real.cos (f.a - Real.pi / 4 + (f.b - Real.pi / 4)) * Real.cos (f.a - Real.pi / 4 - (f.b - Real.pi / 4)) :=
    mul_nonneg (Real.cos_nonneg_of_neg_pi_div_two_le_of_le (by linarith) (by linarith))
      (Real.cos_nonneg_of_neg_pi_div_two_le_of_le (by linarith) (by linarith))
  unfold toSwap
  dsimp only
  rw [Exact.zero_eq]
  split
  next above =>
    have sine : 0 ≤ Real.sin (2 * f.c) := Real.sin_nonneg_of_nonneg_of_le_pi (by linarith) (by linarith)
    simp only [Form.fittedTo, Exact.quarterPi_eq]
    rcases near with near | near
    · exact near
    · nlinarith [mul_nonneg factor sine]
  next below =>
    have sine : Real.sin (2 * f.c) ≤ 0 := Real.sin_nonpos_of_nonpos_of_neg_pi_le (by linarith) (by linarith)
    have same : traceFidelity (canonicalTrace (Real.pi / 2 - f.a - Real.pi / 4) (f.b - Real.pi / 4) (-f.c - Real.pi / 4)) =
        traceFidelity (canonicalTrace (f.a - Real.pi / 4) (f.b - Real.pi / 4) (f.c + Real.pi / 4)) := by
      have firstAngle : Real.pi / 2 - f.a - Real.pi / 4 = -(f.a - Real.pi / 4) := by ring
      have thirdAngle : -f.c - Real.pi / 4 = -(f.c + Real.pi / 4) := by ring
      rw [traceFidelity_canonicalTrace, traceFidelity_canonicalTrace, firstAngle, thirdAngle, Real.cos_neg, Real.cos_neg,
        Real.sin_neg, Real.sin_neg]
      ring
    simp only [Exact.quarterPi_eq, Exact.halfPi_eq]
    rw [same]
    rcases near with near | near
    · nlinarith [mul_nonneg factor (neg_nonneg.mpr sine)]
    · exact near

theorem isNear_iff {fidelity a b c : ℝ} : f.isNear fidelity a b c = true ↔
    fidelity ≤ traceFidelity (canonicalTrace (f.a - a) (f.b - b) (f.c - c)) := decide_eq_true_iff

/-- The class that is chosen has its point within the requested fidelity, the swap one of its two. -/
theorem nearestClass_isNear (f : Form ℝ) {fidelity : ℝ} (possible : fidelity ≤ 1) :
    f.nearestClass fidelity = .swap ∧ (f.isNear fidelity (Real.pi / 4) (Real.pi / 4) (Real.pi / 4) = true ∨
        f.isNear fidelity (Real.pi / 4) (Real.pi / 4) (-(Real.pi / 4)) = true) ∨
      f.nearestClass fidelity ≠ .swap ∧ ∃ a b c, (f.nearestClass fidelity).point f.a f.b f.c = (a, b, c) ∧
        f.isNear fidelity a b c = true := by
  generalize chosen : f.nearestClass fidelity = k
  unfold Form.nearestClass at chosen
  dsimp only at chosen
  split at chosen
  next near =>
    obtain rfl := chosen
    rw [Exact.zero_eq] at near
    exact .inr ⟨by decide, _, _, _, rfl, near⟩
  split at chosen
  next near =>
    obtain rfl := chosen
    rw [Exact.quarterPi_eq] at near
    exact .inl ⟨rfl, (Bool.or_eq_true _ _).mp near⟩
  split at chosen
  next near =>
    obtain rfl := chosen
    exact .inr ⟨by decide, _, _, _, rfl, near⟩
  split at chosen
  next near =>
    obtain rfl := chosen
    exact .inr ⟨by decide, _, _, _, rfl, near⟩
  split at chosen
  next near =>
    obtain rfl := chosen
    rw [Exact.zero_eq] at near
    exact .inr ⟨by decide, _, _, _, rfl, near⟩
  split at chosen
  next near =>
    obtain rfl := chosen
    rw [Exact.quarterPi_eq] at near
    exact .inr ⟨by decide, _, _, _, rfl, near⟩
  split at chosen
  next near =>
    obtain rfl := chosen
    rw [Exact.numeral_eq] at near
    exact .inr ⟨by decide, _, _, _, rfl, near⟩
  split at chosen
  next near =>
    obtain rfl := chosen
    rw [Exact.numeral_eq] at near
    exact .inr ⟨by decide, _, _, _, rfl, near⟩
  split at chosen
  next near =>
    obtain rfl := chosen
    have mirrored : (f.c - f.b) / 2 = -((f.b - f.c) / 2) := by ring
    rw [Exact.numeral_eq, mirrored] at near
    exact .inr ⟨by decide, _, _, _, rfl, near⟩
  next =>
    obtain rfl := chosen
    refine .inr ⟨by decide, _, _, _, rfl, isNear_iff.mpr (possible.trans_eq ?_)⟩
    rw [sub_self, sub_self, sub_self, traceFidelity_canonicalTrace, Real.cos_zero, Real.sin_zero]
    norm_num

/-- The class that is chosen reaches the requested fidelity. -/
theorem nearestClass_reaches (chamber : f.InChamber) {fidelity : ℝ} (possible : fidelity ≤ 1)
    (fitted : f.fit (f.nearestClass fidelity) = .ok fit) : fidelity ≤ traceFidelity fit.trace := by
  rcases nearestClass_isNear f possible with ⟨swap, near⟩ | ⟨other, a, b, c, point, near⟩
  · rw [swap] at fitted
    obtain rfl := Except.ok.inj fitted
    rw [isNear_iff, isNear_iff, sub_neg_eq_add] at near
    exact toSwap_reaches chamber near
  · obtain ⟨moved, trace⟩ := fit_moves fitted
    obtain ⟨rfl, rfl, rfl⟩ : fit.form.a = a ∧ fit.form.b = b ∧ fit.form.c = c := by
      simpa only [Prod.mk.injEq] using moved.trans point
    rw [trace.resolve_right fun turned => other turned.1]
    exact isNear_iff.mp near

/-! ## Perfect fits -/

/-- Numbers between zero and one, the first not zero, whose product and whose complements' product make
one, are one. -/
theorem eq_one_of_products {x y z : ℝ} (positive : 0 < x) (y0 : 0 ≤ y) (z0 : 0 ≤ z) (x1 : x ≤ 1) (y1 : y ≤ 1)
    (z1 : z ≤ 1) (full : 1 ≤ x * y * z + (1 - x) * (1 - y) * (1 - z)) : x = 1 ∧ y = 1 ∧ z = 1 := by
  have sum : x * (1 - y) + y * (1 - z) + z * (1 - x) ≤ 0 := by linarith
  have xy : 0 ≤ x * (1 - y) := mul_nonneg positive.le (by linarith)
  have yz : 0 ≤ y * (1 - z) := mul_nonneg y0 (by linarith)
  have zx : 0 ≤ z * (1 - x) := mul_nonneg z0 (by linarith)
  have second : 1 - y = 0 := (mul_eq_zero.mp (by linarith : x * (1 - y) = 0)).resolve_left positive.ne'
  obtain rfl : y = 1 := by linarith
  obtain rfl : z = 1 := by linarith
  exact ⟨by linarith, rfl, rfl⟩

/-- Numbers between zero and one have such a sum of at most one. -/
theorem products_le_one {x y z : ℝ} (x0 : 0 ≤ x) (y0 : 0 ≤ y) (z0 : 0 ≤ z) (x1 : x ≤ 1) (y1 : y ≤ 1) (z1 : z ≤ 1) :
    x * y * z + (1 - x) * (1 - y) * (1 - z) ≤ 1 := by
  have xy := mul_nonneg x0 (sub_nonneg.mpr y1)
  have yz := mul_nonneg y0 (sub_nonneg.mpr z1)
  have zx := mul_nonneg z0 (sub_nonneg.mpr x1)
  linarith

/-- An angle below a half turn whose cosine has the full square is zero. -/
theorem eq_zero_of_cos_sq {x : ℝ} (small : |x| < Real.pi) (full : 1 ≤ Real.cos x ^ 2) : x = 0 := by
  have circle := Real.sin_sq_add_cos_sq x
  have sine : Real.sin x = 0 := by
    rw [← sq_eq_zero_iff]
    exact le_antisymm (by linarith) (sq_nonneg _)
  exact (Real.sin_eq_zero_iff_of_lt_of_lt (abs_lt.mp small).1 (abs_lt.mp small).2).mp sine

/-- Angles below a half turn, the first below a right one, whose interaction has the full trace are zero. -/
theorem eq_zero_of_full_trace {θ : Axis → ℝ} (first : |θ .x| < Real.pi / 2) (small : ∀ k, |θ k| < Real.pi)
    (full : 4 ≤ ‖(coupling θ).trace‖) : θ = 0 := by
  have cosine : 0 < Real.cos (θ .x) := Real.cos_pos_of_mem_Ioo (abs_lt.mp first)
  have circle (k : Axis) : Real.sin (θ k) ^ 2 = 1 - Real.cos (θ k) ^ 2 := by
    linarith [Real.sin_sq_add_cos_sq (θ k)]
  have value : ‖(coupling θ).trace‖ ^ 2 =
      16 * ((Real.cos (θ .x) * Real.cos (θ .y) * Real.cos (θ .z)) ^ 2 +
        (Real.sin (θ .x) * Real.sin (θ .y) * Real.sin (θ .z)) ^ 2) := by
    rw [← norm_sq_canonicalTrace, toComplex_canonicalTrace, angles_eta]
  have most : 16 ≤ ‖(coupling θ).trace‖ ^ 2 := by nlinarith
  rw [value, mul_pow, mul_pow, mul_pow, mul_pow, circle, circle, circle] at most
  obtain ⟨x, y, z⟩ := eq_one_of_products (pow_pos cosine 2) (sq_nonneg (Real.cos (θ .y))) (sq_nonneg (Real.cos (θ .z)))
    (Real.cos_sq_le_one _) (Real.cos_sq_le_one _) (Real.cos_sq_le_one _) (by linarith)
  funext k
  cases k with
  | x => exact eq_zero_of_cos_sq (small .x) x.ge
  | y => exact eq_zero_of_cos_sq (small .y) y.ge
  | z => exact eq_zero_of_cos_sq (small .z) z.ge

/-- A perfect fit keeps the angles, the third one up to its sign. -/
theorem fit_perfect (chamber : f.InChamber) (fitted : f.fit k = .ok fit) (perfect : traceFidelity fit.trace = 1) :
    fit.form.a = f.a ∧ fit.form.b = f.b ∧ (fit.form.c = f.c ∨ fit.form.c = -f.c) := by
  have positive := Real.pi_pos
  have inside := fit_inChamber chamber fitted
  have nonneg := chamber.nonneg
  have nonneg' := inside.nonneg
  obtain ⟨first, second, third⟩ := chamber
  obtain ⟨first', second', third'⟩ := inside
  have full : 4 ≤ ‖fit.trace.toComplex‖ := by
    rw [traceFidelity_eq] at perfect
    nlinarith [norm_nonneg fit.trace.toComplex]
  have aligned {a b c : ℝ} (a0 : |a| ≤ Real.pi / 4) (b0 : |b| ≤ Real.pi / 4) (c0 : |c| ≤ Real.pi / 2)
      (trace : fit.trace = canonicalTrace a b c) : a = 0 ∧ b = 0 ∧ c = 0 := by
    rw [trace, toComplex_canonicalTrace] at full
    have small (k : Axis) : |angles a b c k| < Real.pi := by
      cases k with
      | x => exact a0.trans_lt (by linarith)
      | y => exact b0.trans_lt (by linarith)
      | z => exact c0.trans_lt (by linarith)
    have zero := eq_zero_of_full_trace (a0.trans_lt (by linarith)) small full
    exact ⟨congrFun zero .x, congrFun zero .y, congrFun zero .z⟩
  have boundC := abs_le.mp third
  have boundC' := abs_le.mp third'
  rcases (fit_moves fitted).2 with trace | ⟨-, trace⟩
  · obtain ⟨a, b, c⟩ := aligned (abs_le.mpr ⟨by linarith, by linarith⟩) (abs_le.mpr ⟨by linarith, by linarith⟩)
      (abs_le.mpr ⟨by linarith, by linarith⟩) trace
    exact ⟨by linarith, by linarith, .inl (by linarith)⟩
  · obtain ⟨a, b, c⟩ := aligned (abs_le.mpr ⟨by linarith, by linarith⟩) (abs_le.mpr ⟨by linarith, by linarith⟩)
      (abs_le.mpr ⟨by linarith, by linarith⟩) trace
    exact ⟨by linarith, by linarith, .inr (by linarith)⟩

/-! ## What a fit loses -/

/-- No entry is larger than the root of the sum of all squares. -/
theorem norm_entry_le (m : TwoQubit) (i j : Fin 4) : ‖m i j‖ ≤ √(∑ i, ∑ j, ‖m i j‖ ^ 2) := by
  apply Real.le_sqrt_of_sq_le
  calc
    ‖m i j‖ ^ 2 ≤ ∑ j, ‖m i j‖ ^ 2 :=
      Finset.single_le_sum (f := fun j => ‖m i j‖ ^ 2) (fun _ _ => sq_nonneg _) (Finset.mem_univ j)
    _ ≤ ∑ i, ∑ j, ‖m i j‖ ^ 2 :=
      Finset.single_le_sum (f := fun i => ∑ j, ‖m i j‖ ^ 2) (fun _ _ => Finset.sum_nonneg fun _ _ => sq_nonneg _)
        (Finset.mem_univ i)

/-- Some entry is at least a quarter of it. -/
theorem exists_norm_entry_ge (m : TwoQubit) : ∃ i j, √(∑ i, ∑ j, ‖m i j‖ ^ 2) / 4 ≤ ‖m i j‖ := by
  obtain ⟨⟨i, j⟩, -, most⟩ := Finset.exists_max_image Finset.univ (fun p : Fin 4 × Fin 4 => ‖m p.1 p.2‖)
    ⟨(0, 0), Finset.mem_univ _⟩
  have total : ∑ i, ∑ j, ‖m i j‖ ^ 2 ≤ (4 * ‖m i j‖) ^ 2 := by
    calc
      _ ≤ ∑ _ : Fin 4, ∑ _ : Fin 4, ‖m i j‖ ^ 2 :=
        Finset.sum_le_sum fun a _ => Finset.sum_le_sum fun b _ =>
          pow_le_pow_left₀ (norm_nonneg _) (most (a, b) (Finset.mem_univ _)) 2
      _ = _ := by
        simp
        ring
  have root := Real.sqrt_le_iff.mpr ⟨by positivity, total⟩
  exact ⟨i, j, by linarith⟩

/-- The sum of the squared differences of two unitaries, by the trace of one's adjoint with the other. -/
theorem sum_sq_sub {v w : TwoQubit} (left : v ∈ unitaryGroup (Fin 4) ℂ) (right : w ∈ unitaryGroup (Fin 4) ℂ) :
    ∑ i, ∑ j, ‖v i j - w i j‖ ^ 2 = 8 - 2 * ((vᴴ * w).trace).re := by
  have own {m : TwoQubit} (unitary : m ∈ unitaryGroup (Fin 4) ℂ) : ((mᴴ * m).trace).re = 4 := by
    rw [← star_eq_conjTranspose, mem_unitaryGroup_iff'.mp unitary, Matrix.trace_one, Fintype.card_fin]
    norm_num
  have entries : ((((v - w)ᴴ * (v - w)).trace).re : ℝ) = ∑ i, ∑ j, ‖v i j - w i j‖ ^ 2 := by
    rw [Finset.sum_comm, Matrix.trace, Complex.re_sum]
    refine Finset.sum_congr rfl fun j _ => ?_
    rw [Matrix.diag_apply, Matrix.mul_apply, Complex.re_sum]
    refine Finset.sum_congr rfl fun i _ => ?_
    rw [Matrix.conjTranspose_apply, Complex.star_def, Complex.conj_mul', Matrix.sub_apply]
    norm_cast
  have mirrored : ((wᴴ * v).trace).re = ((vᴴ * w).trace).re := by
    have adjoint : wᴴ * v = (vᴴ * w)ᴴ := by rw [Matrix.conjTranspose_mul, Matrix.conjTranspose_conjTranspose]
    rw [adjoint, Matrix.trace_conjTranspose, Complex.star_def, Complex.conj_re]
  rw [← entries, Matrix.conjTranspose_sub, Matrix.sub_mul, Matrix.mul_sub, Matrix.mul_sub, Matrix.trace_sub,
    Matrix.trace_sub, Matrix.trace_sub, Complex.sub_re, Complex.sub_re, Complex.sub_re, own left, own right, mirrored]
  ring

/-- A decomposition in the chamber whose overlap with a unitary is that of the fidelity it reports. -/
structure Decomposition.Fits (target : Decomposition ℝ) (u : Mat4 ℝ) : Prop where
  factored : target.Factored
  chamber : target.InChamber
  overlap : (target.reconstruct.toMatrixᴴ * u.toMatrix).trace = (√(20 * target.calculated - 4) : ℝ)

theorem Decomposition.Fits.loss {target : Decomposition ℝ} {u : Mat4 ℝ} (fits : target.Fits u) (unitary : u.Unitary) :
    ∑ i, ∑ j, ‖target.reconstruct.toMatrix i j - u.toMatrix i j‖ ^ 2 = 8 - 2 * √(20 * target.calculated - 4) := by
  rw [sum_sq_sub fits.factored.reconstruct_unitary unitary, fits.overlap, Complex.ofReal_re]

/-- A perfect fit denotes the unitary. -/
theorem Decomposition.Fits.exact {target : Decomposition ℝ} {u : Mat4 ℝ} (fits : target.Fits u) (unitary : u.Unitary)
    (perfect : target.calculated = 1) : target.reconstruct = u := by
  have full : √(20 * target.calculated - 4) = 4 := by
    rw [perfect, Real.sqrt_eq_iff_mul_self_eq (by norm_num) (by norm_num)]
    norm_num
  have zero := fits.loss unitary
  rw [full] at zero
  apply Square.toMatrix_injective
  ext i j
  have entry := norm_entry_le (target.reconstruct.toMatrix - u.toMatrix) i j
  simp only [Matrix.sub_apply] at entry
  rw [zero] at entry
  norm_num at entry
  exact sub_eq_zero.mp entry

/-- Whatever class a form in the chamber is fitted to, the decomposition fits it, if the fidelity is reached. -/
theorem ofForm_fits_class (factored : f.Factored) (chamber : f.InChamber) {o : Options ℝ}
    (fitted : f.fit (o.classFor f) = .ok fit) (reached : o.missed? (traceFidelity fit.trace) = none) :
    Decomposition.ofForm f.matrix f o = .ok (fit.decomposition f o) ∧ (fit.decomposition f o).Fits f.matrix := by
  obtain ⟨fit', η, fitted', fits⟩ := fit_at factored.innerLeft factored.innerRight (o.classFor f)
  obtain rfl := Except.ok.inj (fitted'.symm.trans fitted)
  have size : 0 ≤ fit'.trace.abs := by
    rw [Cx.abs_eq]
    exact norm_nonneg _
  have modulus : √(20 * traceFidelity fit'.trace - 4) = fit'.trace.abs := by
    have square : 20 * traceFidelity fit'.trace - 4 = fit'.trace.abs ^ 2 := by
      simp only [traceFidelity, Exact.numeral_eq]
      ring
    rw [square, Real.sqrt_sq size]
  obtain ⟨outerL, outerR, innerL, innerR⟩ := fit_factored factored fitted
  obtain ⟨first, second, third⟩ := fit_inChamber chamber fitted
  refine ⟨?_, ⟨outerL, outerR, innerL, innerR⟩, ⟨first, second, third⟩, ?_⟩
  · rw [ofForm_eq o fitted, reached]
  · rw [trace_reconstruct factored.outerLeft factored.outerRight factored.innerLeft factored.innerRight fits o]
    exact congrArg _ modulus.symm

/-- A form in the chamber is fitted to the class that is chosen, and reaches the requested fidelity. -/
theorem ofForm_fits (factored : f.Factored) (chamber : f.InChamber) {fidelity : ℝ} (possible : fidelity ≤ 1) :
    ∃ fit : Fitted ℝ, f.fit (f.nearestClass fidelity) = .ok fit ∧
      Decomposition.ofForm f.matrix f ⟨some fidelity, none⟩ = .ok (fit.decomposition f ⟨some fidelity, none⟩) ∧
      fidelity ≤ traceFidelity fit.trace ∧ (fit.decomposition f ⟨some fidelity, none⟩).Fits f.matrix := by
  set o : Options ℝ := ⟨some fidelity, none⟩
  obtain ⟨fit, η, fitted, -⟩ := fit_at factored.innerLeft factored.innerRight (o.classFor f)
  have reaches : fidelity ≤ traceFidelity fit.trace := nearestClass_reaches chamber possible fitted
  have none : o.missed? (traceFidelity fit.trace) = none := by
    have allowed : ¬ traceFidelity fit.trace + 1e-13 < fidelity := by linarith
    simpa [Options.missed?, o] using allowed
  obtain ⟨decomposed, fits⟩ := ofForm_fits_class factored chamber fitted none
  exact ⟨fit, fitted, decomposed, reaches, fits⟩

/-- A unitary with an exact diagonalisation has a decomposition that reaches the requested fidelity. -/
theorem ofUnitary_fits {u : Mat4 ℝ} (unitary : u.Unitary) {d : Diagonalization ℝ}
    (found : diagonalize ((specialUnitary u u.det).transpose * specialUnitary u u.det) = .ok d)
    (orthogonal : d.rotation.toReal * d.rotation.toRealᵀ = 1)
    (exact : d.matrix = (specialUnitary u u.det).transpose * specialUnitary u u.det) {fidelity : ℝ}
    (possible : fidelity ≤ 1) :
    ∃ target : Decomposition ℝ, Decomposition.ofUnitary u ⟨some fidelity, none⟩ = .ok target ∧
      fidelity ≤ target.calculated ∧ target.Fits u := by
  obtain ⟨f, canonical, denotes, factored⟩ := canonicalForm_factored unitary found orthogonal exact
  obtain ⟨fit, -, fitted, reaches, fits⟩ := ofForm_fits factored (canonicalForm_inChamber canonical) possible
  rw [denotes] at fitted fits
  refine ⟨_, ?_, reaches, fits⟩
  rw [Decomposition.ofUnitary, canonical]
  exact fitted

end Entangle.Weyl

end
