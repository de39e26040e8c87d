import Mathlib
import Entangle.Proofs.CanonicalForm

/-!
# Angles in the chamber

The phases of a diagonalisation are halves of arguments, so that the angle of an axis is less than a
right angle away from a whole turn. Folding takes such an angle to its distance from the nearest
multiple of a right angle, the third one up to its sign. The axes come in the order of these distances,
and every canonical form therefore lies in the chamber.
-/

noncomputable section

namespace Entangle.Weyl

open Complex

/-- The angles of a form lie in the chamber. -/
structure Form.InChamber (f : Form ℝ) : Prop where
  first : f.a ≤ Real.pi / 4
  second : f.b ≤ f.a
  third : |f.c| ≤ f.b

/-! ## One angle -/

/-- A right angle at most past a whole turn, or less than one before it. -/
def Facing (x : ℝ) : Prop := 0 ≤ x ∧ x ≤ Real.pi / 2 ∨ 3 * Real.pi / 2 < x ∧ x < 2 * Real.pi

/-- The angle with three right angles taken off where it is before a whole turn. -/
def turned (x : ℝ) : ℝ := if Real.pi / 2 < x then x - 3 * Real.pi / 2 else x

/-- The distance from the ends of a right angle. -/
def nearness (x : ℝ) : ℝ := min x (Real.pi / 2 - x)

theorem turned_mem {x : ℝ} (facing : Facing x) : 0 ≤ turned x ∧ turned x ≤ Real.pi / 2 := by
  have positive := Real.pi_pos
  unfold turned
  rcases facing with ⟨lower, upper⟩ | ⟨lower, upper⟩
  · rw [if_neg (not_lt.mpr upper)]
    exact ⟨lower, upper⟩
  · rw [if_pos (by linarith)]
    constructor <;> linarith

theorem nearness_le (x : ℝ) : nearness x ≤ Real.pi / 4 := by
  rcases le_total x (Real.pi / 4) with small | large
  · exact (min_le_left _ _).trans small
  · exact (min_le_right _ _).trans (by linarith)

theorem nearness_reflected (x : ℝ) : nearness (Real.pi / 2 - x) = nearness x := by
  rw [nearness, nearness, min_comm, sub_sub_cancel]

theorem smaller_eq (x y : ℝ) : Scalar.smaller x y = min x y := by
  simp only [Scalar.smaller, Exact.isInf_eq, Exact.isNaN_eq, Bool.false_and, Bool.false_eq_true, if_false]
  split
  next less => exact (min_eq_left less.le).symm
  next more => exact (min_eq_right (not_lt.mp more)).symm

/-- The distance of an angle that faces a whole turn from the nearest multiple of a right angle. -/
theorem rightAngleDistance_eq {x : ℝ} (facing : Facing x) : rightAngleDistance x = nearness (turned x) := by
  have positive := Real.pi_pos
  have nonnegative : 0 ≤ x / (Real.pi / 2) := by
    rcases facing with ⟨lower, -⟩ | ⟨lower, -⟩
    · positivity
    · exact div_nonneg (by linarith) (by linarith)
  have rest : Scalar.fmod x Scalar.halfPi = x - Real.pi / 2 * ⌊x / (Real.pi / 2)⌋ := by
    rw [Exact.fmod_eq, Exact.halfPi_eq, Exact.towardsZero, if_pos nonnegative]
  rw [rightAngleDistance, rest, Exact.halfPi_eq, smaller_eq, ← nearness]
  rcases facing with ⟨lower, upper⟩ | ⟨lower, upper⟩
  · rw [turned, if_neg (not_lt.mpr upper)]
    rcases upper.lt_or_eq with less | rfl
    · have whole : ⌊x / (Real.pi / 2)⌋ = 0 := by
        rw [Int.floor_eq_zero_iff]
        exact ⟨nonnegative, (div_lt_one (by linarith)).mpr less⟩
      rw [whole, Int.cast_zero, mul_zero, sub_zero]
    · have whole : ⌊Real.pi / 2 / (Real.pi / 2)⌋ = 1 := by
        rw [div_self (by linarith), Int.floor_one]
      rw [whole, Int.cast_one, mul_one, nearness_reflected]
  · have whole : ⌊x / (Real.pi / 2)⌋ = 3 := by
      rw [Int.floor_eq_iff, le_div_iff₀ (by linarith), div_lt_iff₀ (by linarith)]
      push_cast
      constructor <;> linarith
    rw [turned, if_pos (by linarith), whole]
    push_cast
    congr 1
    ring

/-- The angle of an axis before whole turns are added: half arguments keep it below a right angle. -/
def axisSum (stored : Vector (Cx ℝ) 4) (k : Fin 3) : ℝ :=
  ((halfPhases stored).get k.castSucc + (halfPhases stored).get 3) / 2

theorem axisSum_mem (stored : Vector (Cx ℝ) 4) (k : Fin 3) :
    -(Real.pi / 2) < axisSum stored k ∧ axisSum stored k ≤ Real.pi / 2 := by
  have half (j : Fin 4) : -(Real.pi / 2) ≤ -(stored.get j).arg / 2 ∧ -(stored.get j).arg / 2 < Real.pi / 2 := by
    rw [Cx.arg_eq]
    constructor
    · linarith [Complex.arg_le_pi (stored.get j).toComplex]
    · linarith [Complex.neg_pi_lt_arg (stored.get j).toComplex]
  obtain ⟨lower0, upper0⟩ := half 0
  obtain ⟨lower1, upper1⟩ := half 1
  obtain ⟨lower2, upper2⟩ := half 2
  set d0 := -(stored.get 0).arg / 2
  set d1 := -(stored.get 1).arg / 2
  set d2 := -(stored.get 2).arg / 2
  have entries : halfPhases stored = #v[d0, d1, d2, -(d0 + d1 + d2)] := rfl
  rw [axisSum, entries]
  fin_cases k
  · change _ < (d0 + -(d0 + d1 + d2)) / 2 ∧ (d0 + -(d0 + d1 + d2)) / 2 ≤ _
    constructor <;> linarith
  · change _ < (d1 + -(d0 + d1 + d2)) / 2 ∧ (d1 + -(d0 + d1 + d2)) / 2 ≤ _
    constructor <;> linarith
  · change _ < (d2 + -(d0 + d1 + d2)) / 2 ∧ (d2 + -(d0 + d1 + d2)) / 2 ≤ _
    constructor <;> linarith

theorem axisAngle_halfPhases (stored : Vector (Cx ℝ) 4) (k : Fin 3) :
    axisAngle (halfPhases stored) k =
      if axisSum stored k < 0 then axisSum stored k + 2 * Real.pi else axisSum stored k := by
  have positive := Real.pi_pos
  obtain ⟨lower, upper⟩ := axisSum_mem stored k
  have whole : Exact.towardsZero (axisSum stored k / (2 * Real.pi)) = 0 := by
    unfold Exact.towardsZero
    split
    next nonnegative =>
      rw [Int.floor_eq_zero_iff]
      exact ⟨nonnegative, (div_lt_one (by linarith)).mpr (by linarith)⟩
    next negative =>
      rw [Int.ceil_eq_zero_iff]
      refine ⟨?_, (not_le.mp negative).le⟩
      rw [lt_div_iff₀ (by linarith)]
      linarith
  change Scalar.modPositive (axisSum stored k) Scalar.tau = _
  rw [Scalar.modPositive, Exact.tau_eq, Exact.fmod_eq, whole, Int.cast_zero, mul_zero, sub_zero, Exact.zero_eq]

theorem axisAngle_facing (stored : Vector (Cx ℝ) 4) (k : Fin 3) : Facing (axisAngle (halfPhases stored) k) := by
  obtain ⟨lower, upper⟩ := axisSum_mem stored k
  rw [axisAngle_halfPhases]
  split
  · exact .inr ⟨by linarith, by linarith⟩
  · exact .inl ⟨by linarith, upper⟩

/-- The distance of an axis from the nearest multiple of a right angle. -/
theorem rightAngleDistance_axisAngle (stored : Vector (Cx ℝ) 4) (k : Fin 3) :
    rightAngleDistance (axisAngle (halfPhases stored) k) = nearness |axisSum stored k| := by
  have positive := Real.pi_pos
  obtain ⟨lower, upper⟩ := axisSum_mem stored k
  rw [rightAngleDistance_eq (axisAngle_facing stored k), axisAngle_halfPhases]
  split
  next negative =>
    have back : axisSum stored k + 2 * Real.pi - 3 * Real.pi / 2 = Real.pi / 2 - |axisSum stored k| := by
      rw [abs_of_neg negative]
      ring
    rw [turned, if_pos (by linarith), back, nearness_reflected]
  next nonnegative =>
    rw [turned, if_neg (not_lt.mpr upper), abs_of_nonneg (not_lt.mp nonnegative)]

/-! ## Folding -/

namespace Folding

theorem turnX_angles (f : Folding ℝ) : f.turnX.x = turned f.x ∧ f.turnX.y = f.y ∧ f.turnX.z = f.z := by
  unfold turnX turned
  rw [Exact.halfPi_eq]
  split
  · refine ⟨?_, rfl, rfl⟩
    simp
    ring
  · exact ⟨rfl, rfl, rfl⟩

theorem turnY_angles (f : Folding ℝ) : f.turnY.x = f.x ∧ f.turnY.y = turned f.y ∧ f.turnY.z = f.z := by
  unfold turnY turned
  rw [Exact.halfPi_eq]
  split
  · refine ⟨rfl, ?_, rfl⟩
    simp
    ring
  · exact ⟨rfl, rfl, rfl⟩

theorem turnZ_angles (f : Folding ℝ) : f.turnZ.x = f.x ∧ f.turnZ.y = f.y ∧ f.turnZ.z = turned f.z := by
  unfold turnZ turned
  rw [Exact.halfPi_eq]
  split
  · refine ⟨rfl, rfl, ?_⟩
    simp
    ring
  · exact ⟨rfl, rfl, rfl⟩

theorem reflect_eq (x : ℝ) : (if Real.pi / 4 < x then Real.pi / 2 - x else x) = nearness x := by
  unfold nearness
  split
  · exact (min_eq_right (by linarith)).symm
  · exact (min_eq_left (by linarith)).symm

theorem reflectX_angles (f : Folding ℝ) :
    f.reflectX.x = nearness f.x ∧ f.reflectX.y = f.y ∧ f.reflectX.z = f.z := by
  rw [← reflect_eq]
  unfold reflectX
  rw [Exact.quarterPi_eq, Exact.halfPi_eq]
  split <;> exact ⟨rfl, rfl, rfl⟩

theorem reflectY_angles (f : Folding ℝ) :
    f.reflectY.x = f.x ∧ f.reflectY.y = nearness f.y ∧ f.reflectY.z = f.z := by
  rw [← reflect_eq]
  unfold reflectY
  rw [Exact.quarterPi_eq, Exact.halfPi_eq]
  split <;> exact ⟨rfl, rfl, rfl⟩

theorem reflectZ_angles (f : Folding ℝ) :
    f.reflectZ.x = f.x ∧ f.reflectZ.y = f.y ∧ (f.reflectZ.z = Real.pi / 2 - f.z ∨ f.reflectZ.z = f.z) := by
  unfold reflectZ
  rw [Exact.halfPi_eq]
  split
  · exact ⟨rfl, rfl, .inl rfl⟩
  · exact ⟨rfl, rfl, .inr rfl⟩

theorem dropZ_angles {f : Folding ℝ} (lower : 0 ≤ f.z) (upper : f.z ≤ Real.pi / 2) :
    f.dropZ.x = f.x ∧ f.dropZ.y = f.y ∧ |f.dropZ.z| = nearness f.z := by
  rw [← reflect_eq]
  unfold dropZ
  rw [Exact.quarterPi_eq, Exact.halfPi_eq]
  split
  · refine ⟨rfl, rfl, ?_⟩
    dsimp only
    rw [abs_of_nonpos (by linarith), neg_sub]
  · exact ⟨rfl, rfl, abs_of_nonneg lower⟩

/-- Folding takes angles that face a whole turn to their distances from the nearest multiples of a right
angle, the third one up to its sign. -/
theorem fold_angles {f : Folding ℝ} (facingX : Facing f.x) (facingY : Facing f.y) (facingZ : Facing f.z) :
    f.fold.x = rightAngleDistance f.x ∧ f.fold.y = rightAngleDistance f.y ∧
      |f.fold.z| = rightAngleDistance f.z := by
  obtain ⟨lower, upper⟩ := turned_mem facingZ
  obtain ⟨x1, y1, z1⟩ := turnX_angles f
  obtain ⟨x2, y2, z2⟩ := turnY_angles f.turnX
  obtain ⟨x3, y3, z3⟩ := reflectX_angles f.turnX.turnY
  obtain ⟨x4, y4, z4⟩ := reflectY_angles f.turnX.turnY.reflectX
  obtain ⟨x5, y5, z5⟩ := turnZ_angles f.turnX.turnY.reflectX.reflectY
  obtain ⟨x6, y6, z6⟩ := reflectZ_angles f.turnX.turnY.reflectX.reflectY.turnZ
  rw [x4, x3, x2, x1] at x5
  rw [y4, y3, y2, y1] at y5
  rw [z4, z3, z2, z1] at z5
  rw [z5] at z6
  have third : 0 ≤ f.turnX.turnY.reflectX.reflectY.turnZ.reflectZ.z ∧
      f.turnX.turnY.reflectX.reflectY.turnZ.reflectZ.z ≤ Real.pi / 2 ∧
      nearness f.turnX.turnY.reflectX.reflectY.turnZ.reflectZ.z = nearness (turned f.z) := by
    rcases z6 with reflected | kept
    · rw [reflected, nearness_reflected]
      exact ⟨by linarith, by linarith, rfl⟩
    · rw [kept]
      exact ⟨lower, upper, rfl⟩
  obtain ⟨x7, y7, z7⟩ := dropZ_angles third.1 third.2.1
  rw [fold, x7, y7, z7, x6, y6, x5, y5, third.2.2, rightAngleDistance_eq facingX, rightAngleDistance_eq facingY,
    rightAngleDistance_eq facingZ]
  exact ⟨rfl, rfl, rfl⟩

end Folding

/-! ## The order of the axes -/

/-- The axes come in the order of their distances, the nearest one last. -/
theorem axisOrder_sorted (distance : Fin 3 → ℝ) :
    distance (axisOrder distance).2.2 ≤ distance (axisOrder distance).1 ∧
      distance (axisOrder distance).1 ≤ distance (axisOrder distance).2.1 := by
  have sorted := Jacobi.sortUp_sorted distance [0, 1, 2]
  have perm := Jacobi.sortUp_perm (fun i j => decide (distance i < distance j)) [0, 1, 2]
  unfold axisOrder
  split
  next nearest middle farthest same =>
    rw [same] at sorted
    simp only [List.pairwise_cons, List.mem_cons, List.not_mem_nil, or_false, forall_eq_or_imp, forall_eq] at sorted
    exact ⟨sorted.1.1, sorted.2.1⟩
  next others =>
    have length := perm.length_eq
    obtain ⟨nearest, middle, farthest, same⟩ := List.length_eq_three.mp length
    exact absurd same (others nearest middle farthest)

theorem axisOrder_of_sorted {distance : Fin 3 → ℝ} (first : distance 0 ≤ distance 1) (second : distance 1 ≤ distance 2) :
    axisOrder distance = (1, 2, 0) := by
  have sorted : Jacobi.sortUp (fun i j => decide (distance i < distance j)) [0, 1, 2] = [0, 1, 2] := by
    apply Jacobi.sortUp_of_sorted
    simp [first, second, first.trans second]
  unfold axisOrder
  split
  next nearest middle farthest same =>
    obtain ⟨rfl, rfl, rfl⟩ : nearest = 0 ∧ middle = 1 ∧ farthest = 2 := by simpa using same.symm.trans sorted
    rfl
  next others => exact absurd sorted (others 0 1 2)

section Start

variable {up : Mat4 ℝ} {d : Diagonalization ℝ} {phase : ℝ} {f : Folding ℝ}

/-- A folding starts from the angles of the axes, in order. -/
theorem startFolding_angles (started : startFolding up d phase = .ok f) :
    f.x = axisAngle (halfPhases d.values) (startOrder d).1 ∧
      f.y = axisAngle (halfPhases d.values) (startOrder d).2.1 ∧
      f.z = axisAngle (halfPhases d.values) (startOrder d).2.2 := by
  obtain ⟨outer, outerOk, rest⟩ := bind_eq_ok.mp started
  obtain ⟨inner, innerOk, result⟩ := bind_eq_ok.mp rest
  rw [startFolding_eq (Outcome.step_eq_ok.mp outerOk) (Outcome.step_eq_ok.mp innerOk), Except.ok.injEq] at started
  rw [← started]
  exact ⟨rfl, rfl, rfl⟩

/-- The form that a start folds to lies in the chamber, with the distances of the axes as angles. -/
theorem startFolding_chamber (started : startFolding up d phase = .ok f) :
    f.fold.toForm.InChamber ∧ f.fold.toForm.a = nearness |axisSum d.values (startOrder d).2.1| ∧
      f.fold.toForm.b = nearness |axisSum d.values (startOrder d).1| ∧
      |f.fold.toForm.c| = nearness |axisSum d.values (startOrder d).2.2| := by
  obtain ⟨x, y, z⟩ := startFolding_angles started
  have facing := axisAngle_facing d.values
  obtain ⟨foldX, foldY, foldZ⟩ := Folding.fold_angles (f := f) (x ▸ facing _) (y ▸ facing _) (z ▸ facing _)
  obtain ⟨least, most⟩ := axisOrder_sorted fun k => rightAngleDistance (axisAngle (halfPhases d.values) k)
  rw [← startOrder] at least most
  rw [x] at foldX
  rw [y] at foldY
  rw [z] at foldZ
  simp only [rightAngleDistance_axisAngle] at foldX foldY foldZ least most
  refine ⟨⟨?_, ?_, ?_⟩, foldY, foldX, foldZ⟩
  · exact foldY.trans_le (nearness_le _)
  · exact (foldX.trans_le most).trans_eq foldY.symm
  · exact (foldZ.trans_le least).trans_eq foldX.symm

end Start

/-- A canonical form is folded from a start at a diagonalisation. -/
theorem canonicalForm_eq_ok {u : Mat4 ℝ} {f : Form ℝ} (canonical : canonicalForm u = .ok f) :
    ∃ d start, diagonalize ((specialUnitary u u.det).transpose * specialUnitary u u.det) = .ok d ∧
      startFolding (specialUnitary u u.det) d (u.det.arg / 4) = .ok start ∧ f = start.fold.toForm := by
  unfold canonicalForm at canonical
  dsimp only at canonical
  split at canonical
  · exact nomatch canonical
  · obtain ⟨d, found, rest⟩ := bind_eq_ok.mp canonical
    obtain ⟨start, started, folded⟩ := bind_eq_ok.mp rest
    exact ⟨d, start, found, started, (Except.ok.inj folded).symm⟩

/-- Every canonical form lies in the chamber, whatever it was made from. -/
theorem canonicalForm_inChamber {u : Mat4 ℝ} {f : Form ℝ} (canonical : canonicalForm u = .ok f) : f.InChamber := by
  obtain ⟨d, start, -, started, rfl⟩ := canonicalForm_eq_ok canonical
  exact (startFolding_chamber started).1

end Entangle.Weyl

end
