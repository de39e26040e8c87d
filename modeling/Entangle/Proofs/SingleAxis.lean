import Mathlib
import Entangle.Proofs.AxialInteraction
import Entangle.Proofs.OuterFactors
import Entangle.Proofs.SequenceDenotation

/-!
# Interactions about any one axis

A diagonal matrix is diagonalised exactly by the standard axes in some order, whichever order its entries come
in. An interaction by up to an eighth of a turn about any one axis, in either sense, therefore has an exact
canonical form with the size of its angle on the first axis. Unless the angle is tiny, the form is kept as a
controlled one.
-/

noncomputable section

namespace Entangle.Weyl

open Matrix Complex

/-! ## Diagonal matrices in any order -/

theorem get_ofRotation (m : Mat4 ℝ) (frame : Real4 ℝ) (k : Fin 4) :
    ((Diagonalization.ofRotation m frame).values.get k).toComplex =
      ((frame.toReal.map ofReal)ᵀ * m.toMatrix * frame.toReal.map ofReal) k k := by
  rw [← Real4.toMatrix_complex, ← Square.toMatrix_transpose, ← Mat4.toMatrix_mul, ← Mat4.toMatrix_mul]
  simp [Diagonalization.ofRotation]

/-- The standard axes in some order diagonalise a diagonal matrix exactly. -/
theorem diagonalize_diagonal_perm (values : Fin 4 → Cx ℝ) :
    ∃ (d : Diagonalization ℝ) (column : Fin 4 → Fin 4), diagonalize (Square.diagonal 0 values) = .ok d ∧
      Function.Bijective column ∧ d.matrix = Square.diagonal 0 values ∧ ∀ k, d.values.get k = values (column k) := by
  set start := Jacobi.State.start (Square.diagonal 0 fun k => mixed (values k)) with startDef
  set frame := (Jacobi.sorted start).vectors with frameDef
  set column := Jacobi.sortedColumn start
  have bijective : Function.Bijective column := Jacobi.sortedColumn_bijective start
  have ordered : frame.toReal = (1 : Matrix (Fin 4) (Fin 4) ℝ).submatrix id column := by
    have unit : start.q.toReal = 1 := by
      ext i j
      simp [startDef, Jacobi.State.start, Matrix.one_apply]
    rw [frameDef, Jacobi.toReal_sorted, unit]
  have plain : Diagonalizes (Square.diagonal 0 values : Mat4 ℝ).toMatrix (1 : Matrix (Fin 4) (Fin 4) ℝ)
      fun k => (values k).toComplex := by
    refine ⟨by rw [Matrix.transpose_one, Matrix.mul_one], ?_⟩
    rw [Matrix.map_one _ Complex.ofReal_zero Complex.ofReal_one, Matrix.transpose_one, Matrix.one_mul, Matrix.mul_one,
      Square.toMatrix_diagonal]
  have turned := plain.reorder bijective
  rw [← ordered] at turned
  set d := Diagonalization.ofRotation (Square.diagonal 0 values) frame
  have read (k : Fin 4) : d.values.get k = values (column k) := by
    apply Cx.toComplex_injective
    rw [get_ofRotation, ← turned.diagonal_eq, Matrix.diagonal_apply_eq, Function.comp_apply]
  have exact : d.matrix = Square.diagonal 0 values := by
    apply Square.toMatrix_injective
    rw [Diagonalization.matrix, Mat4.toMatrix_mul, Mat4.toMatrix_mul, Square.toMatrix_transpose, Real4.toMatrix_complex,
      Square.toMatrix_diagonal, ← turned.product]
    congr 3
    funext k
    rw [Function.comp_apply, ← read]
  exact ⟨d, column, diagonalize_diagonal_of_eigen (Jacobi.eigen_diagonal_eq _) exact, bijective, exact, read⟩

/-! ## One axis -/

/-- The interaction by an angle about one axis. -/
def single (k : Axis) (t : ℝ) : Mat4 ℝ :=
  interaction ((Pi.single k t : Axis → ℝ) .x) ((Pi.single k t : Axis → ℝ) .y) ((Pi.single k t : Axis → ℝ) .z)

theorem single_unitary (k : Axis) (t : ℝ) : (single k t).Unitary := interaction_unitary _ _ _

theorem toMatrix_single (k : Axis) (t : ℝ) : (single k t).toMatrix = coupling (Pi.single k t) := by
  rw [single, toMatrix_interaction, angles_eta]

theorem single_dagger (k : Axis) (t : ℝ) : (single k t).dagger = single k (-t) := by
  apply Square.toMatrix_injective
  rw [Square.toMatrix_dagger, toMatrix_single, toMatrix_single, coupling_conjTranspose, Pi.single_neg]

theorem axial_eq_single (t : ℝ) : axial t = single .z (-t) := by
  simp [axial, single]

theorem phases_single (k : Axis) (t : ℝ) (m : Fin 4) : phases (Pi.single k t) m = -(k.signs m) * t := by
  cases k <;> fin_cases m <;> simp [phases, Axis.signs]

/-- The other vector of the magic basis with the same sign. -/
def Axis.mate : Axis → Fin 4 → Fin 4
  | .x => ![2, 3, 0, 1]
  | .y => ![3, 2, 1, 0]
  | .z => ![1, 0, 3, 2]

theorem Axis.mate_ne (k : Axis) (m : Fin 4) : k.mate m ≠ m := by
  cases k <;> revert m <;> decide

theorem Axis.abs_signs_add (k : Axis) {l m : Fin 4} (apart : l ≠ m) :
    |k.signs l + k.signs m| = if l = k.mate m then 2 else 0 := by
  have whole : ∃ sign : Fin 4 → ℤ, (∀ m, k.signs m = sign m) ∧
      ∀ l m, l ≠ m → |sign l + sign m| = if l = k.mate m then 2 else 0 := by
    cases k with
    | x => exact ⟨![-1, 1, -1, 1], fun m => by fin_cases m <;> simp [Axis.signs], by decide⟩
    | y => exact ⟨![1, -1, -1, 1], fun m => by fin_cases m <;> simp [Axis.signs], by decide⟩
    | z => exact ⟨![-1, -1, 1, 1], fun m => by fin_cases m <;> simp [Axis.signs], by decide⟩
  obtain ⟨sign, same, pairs⟩ := whole
  have value := pairs l m apart
  rw [same, same]
  exact_mod_cast congrArg (Int.cast : ℤ → ℝ) value

/-- The two-qubit rotations about one axis. -/
theorem rxxMatrix_eq (theta : ℝ) : Gate.rxxMatrix theta = single .x (-theta / 2) := by
  apply Square.toMatrix_injective
  simp [Gate.rxxMatrix, single, interaction, Cx.toComplex_mk, neg_div, mul_comm]

theorem rzzMatrix_eq (theta : ℝ) : Gate.rzzMatrix theta = single .z (-theta / 2) := by
  apply Square.toMatrix_injective
  rw [Gate.rzzMatrix, Mat4.toMatrix_diag, single, toMatrix_interaction, coupling_eq_cross, cross, ← Matrix.ext_iff]
  simp [angles, Fin.forall_fin_succ, neg_div]

theorem matrix4_rzz (theta : ℝ) : (Gate.Operation.standard .rzz).matrix4 [theta] = .ok (single .z (-theta / 2)) := by
  rw [← rzzMatrix_eq]
  exact Gate.Operation.matrix4_standard rfl

section Single

variable {k : Axis} {t : ℝ} {d : Diagonalization ℝ} {column : Fin 4 → Fin 4}

/-- Of the three pairs with the last column, one has equal signs. -/
theorem exists_same_sign (k : Axis) (bijective : Function.Bijective column) :
    ∃ j : Fin 3, ∀ i : Fin 3, |k.signs (column i.castSucc) + k.signs (column 3)| = if i = j then 2 else 0 := by
  obtain ⟨l, image⟩ := bijective.surjective (k.mate (column 3))
  have inner : l ≠ 3 := by
    rintro rfl
    exact k.mate_ne (column 3) image.symm
  obtain ⟨j, rfl⟩ : ∃ j : Fin 3, l = j.castSucc := ⟨l.castPred inner, (Fin.castSucc_castPred l inner).symm⟩
  refine ⟨j, fun i => ?_⟩
  have apart : column i.castSucc ≠ column 3 := fun same => (Fin.castSucc_lt_last i).ne (bijective.injective same)
  rw [k.abs_signs_add apart, ← image]
  simp only [bijective.injective.eq_iff, Fin.castSucc_inj]

/-- The half phases of an interaction about one axis, in the order of its diagonalisation. -/
theorem halfPhases_single (small : |t| ≤ Real.pi / 4) (bijective : Function.Bijective column)
    (read : ∀ m, d.values.get m = Cx.cis (2 * phases (Pi.single k t) (column m))) (m : Fin 4) :
    (halfPhases d.values).get m = k.signs (column m) * t := by
  have pi := Real.pi_pos
  have unit (m : Fin 4) : |k.signs m| = 1 := by
    cases k <;> fin_cases m <;> simp [Axis.signs]
  have argument (m : Fin 4) : -(d.values.get m).arg / 2 = k.signs (column m) * t := by
    have size : |2 * phases (Pi.single k t) (column m)| ≤ Real.pi / 2 := by
      rw [phases_single, abs_mul, abs_mul, abs_neg, unit, abs_two]
      linarith
    obtain ⟨lower, upper⟩ := abs_le.mp size
    rw [read, Cx.arg_eq, Cx.toComplex_cis, Complex.arg_exp_mul_I, toIocMod_eq_self _ |>.mpr ⟨by linarith, by linarith⟩,
      phases_single]
    ring
  have balance : ∑ m, k.signs (column m) * t = 0 := by
    rw [bijective.sum_comp fun m => k.signs m * t, ← Finset.sum_mul]
    have zero : ∑ m, k.signs m = 0 := by
      rw [Fin.sum_univ_four]
      cases k <;> simp [Axis.signs]
    rw [zero, zero_mul]
  rw [Fin.sum_univ_four] at balance
  have entries : halfPhases d.values = #v[-(d.values.get 0).arg / 2, -(d.values.get 1).arg / 2, -(d.values.get 2).arg / 2,
      -(-(d.values.get 0).arg / 2 + -(d.values.get 1).arg / 2 + -(d.values.get 2).arg / 2)] := rfl
  rw [entries, argument, argument, argument]
  fin_cases m
  · rfl
  · rfl
  · rfl
  · change -(k.signs (column 0) * t + k.signs (column 1) * t + k.signs (column 2) * t) = k.signs (column 3) * t
    linear_combination -balance

/-- Only one of the three axes turns. -/
theorem exists_axisSum_single (small : |t| ≤ Real.pi / 4) (bijective : Function.Bijective column)
    (read : ∀ m, d.values.get m = Cx.cis (2 * phases (Pi.single k t) (column m))) :
    ∃ j : Fin 3, ∀ i : Fin 3, nearness |axisSum d.values i| = if i = j then |t| else 0 := by
  have pi := Real.pi_pos
  obtain ⟨j, pairs⟩ := exists_same_sign k bijective
  refine ⟨j, fun i => ?_⟩
  have value : |axisSum d.values i| = if i = j then |t| else 0 := by
    have sum : axisSum d.values i = (k.signs (column i.castSucc) + k.signs (column 3)) * t / 2 := by
      rw [axisSum]
      rw [halfPhases_single small bijective read, halfPhases_single small bijective read]
      ring
    rw [sum, abs_div, abs_mul, pairs, abs_two]
    split <;> ring
  rw [value, nearness]
  split
  · exact min_eq_left (by linarith)
  · exact min_eq_left (by linarith)

/-- In the order of the chamber, the one axis that turns comes first, unless nothing turns. -/
theorem turning_first {x y z j : Fin 3} {a b c : ℝ} (perm : [x, y, z].Perm [0, 1, 2]) (second : b ≤ a) (third : |c| ≤ b)
    (first' : a = if y = j then |t| else 0) (second' : b = if x = j then |t| else 0)
    (third' : |c| = if z = j then |t| else 0) : a = |t| ∧ b = 0 ∧ c = 0 := by
  have member : j = x ∨ j = y ∨ j = z := by
    have inside := perm.mem_iff (a := j) |>.mpr (by fin_cases j <;> simp)
    simpa using inside
  have distinct := perm.nodup_iff.mpr (by decide)
  simp only [List.nodup_cons, List.mem_cons, List.not_mem_nil, or_false, not_or, not_false_eq_true, List.nodup_nil,
    and_true] at distinct
  obtain ⟨⟨ne1, ne2⟩, ne3⟩ := distinct
  have size := abs_nonneg t
  rcases member with rfl | rfl | rfl
  · rw [if_neg (Ne.symm ne1)] at first'
    rw [if_pos rfl] at second'
    rw [if_neg (Ne.symm ne2)] at third'
    have zero : |t| = 0 := le_antisymm (by linarith) size
    exact ⟨by rw [first', zero], by rw [second', zero], abs_eq_zero.mp third'⟩
  · rw [if_pos rfl] at first'
    rw [if_neg ne1] at second'
    rw [if_neg (Ne.symm ne3)] at third'
    exact ⟨first', second', abs_eq_zero.mp third'⟩
  · rw [if_neg ne3] at first'
    rw [if_neg ne2] at second'
    rw [if_pos rfl] at third'
    have zero : |t| = 0 := le_antisymm (by linarith) size
    exact ⟨by rw [first', zero], second', abs_eq_zero.mp (third'.trans zero)⟩

/-- The canonical form of an interaction about one axis has the size of its angle on the first axis. -/
theorem canonicalForm_single (k : Axis) (small : |t| ≤ Real.pi / 4) :
    ∃ f : Form ℝ, canonicalForm (single k t) = .ok f ∧ f.matrix = single k t ∧ f.Factored ∧
      f.a = |t| ∧ f.b = 0 ∧ f.c = 0 := by
  have angle : angles ((Pi.single k t : Axis → ℝ) .x) ((Pi.single k t : Axis → ℝ) .y) ((Pi.single k t : Axis → ℝ) .z) =
      Pi.single k t := angles_eta _
  have square := square_specialUnitary_interaction ((Pi.single k t : Axis → ℝ) .x) ((Pi.single k t : Axis → ℝ) .y)
    ((Pi.single k t : Axis → ℝ) .z)
  rw [← single, angle] at square
  obtain ⟨d, column, found, bijective, exact, read⟩ :=
    diagonalize_diagonal_perm fun m => Cx.cis (2 * phases (Pi.single k t) m)
  rw [← square] at found exact
  obtain ⟨-, orthogonal, -⟩ := diagonalize_eq_ok found
  obtain ⟨f, canonical, denotes, factored⟩ := canonicalForm_factored (single_unitary k t) found orthogonal exact
  obtain ⟨d', start, found', started, rfl⟩ := canonicalForm_eq_ok canonical
  obtain rfl := Except.ok.inj (found.symm.trans found')
  obtain ⟨chamber, a, b, c⟩ := startFolding_chamber started
  obtain ⟨j, one⟩ := exists_axisSum_single small bijective read
  rw [one] at a b c
  have perm := axisOrder_perm fun k => rightAngleDistance (axisAngle (halfPhases d.values) k)
  rw [← startOrder] at perm
  exact ⟨_, canonical, denotes, factored, turning_first perm chamber.second chamber.third a b c⟩

/-! ## Its class -/

theorem sq_sin_ge {x : ℝ} (lower : 0.0003 ≤ x) (upper : x ≤ Real.pi / 4) : 3e-8 ≤ Real.sin x ^ 2 := by
  have pi := Real.pi_pos
  have above : 2 / Real.pi * x ≤ Real.sin x := Real.mul_le_sin (by linarith) (by linarith)
  have rate : 0.6 ≤ 2 / Real.pi := by
    rw [le_div_iff₀ pi]
    nlinarith [Real.pi_lt_d2]
  have sine : 0.00018 ≤ Real.sin x := by nlinarith
  nlinarith

/-- A point whose last two angles are `x` or `-x`, with `x` up to an eighth of a turn, costs at least the square of
the sine of `x`. -/
theorem traceFidelity_pair_le (a : ℝ) {x : ℝ} (lower : 0 ≤ x) (upper : x ≤ Real.pi / 4) {c : ℝ} (third : c = x ∨ c = -x) :
    traceFidelity (canonicalTrace a (-x) c) ≤ 1 - 4 / 5 * Real.sin x ^ 2 := by
  have cosine : Real.cos c ^ 2 = Real.cos x ^ 2 := by rcases third with rfl | rfl <;> simp
  have sine : Real.sin c ^ 2 = Real.sin x ^ 2 := by rcases third with rfl | rfl <;> simp
  have circle := Real.sin_sq_add_cos_sq x
  have circle' := Real.sin_sq_add_cos_sq a
  have half : Real.sin x ^ 2 ≤ Real.cos x ^ 2 := by
    have order : Real.sin x ≤ Real.cos x := by
      rw [← Real.cos_pi_div_two_sub]
      exact Real.cos_le_cos_of_nonneg_of_le_pi lower (by linarith [Real.pi_pos]) (by linarith)
    exact pow_le_pow_left₀ (Real.sin_nonneg_of_nonneg_of_le_pi lower (by linarith [Real.pi_pos])) order 2
  rw [traceFidelity_canonicalTrace, mul_pow, mul_pow, mul_pow, mul_pow, cosine, sine, Real.cos_neg, Real.sin_neg, neg_sq]
  set p := Real.cos x ^ 2
  set q := Real.sin x ^ 2
  have q0 : 0 ≤ q := sq_nonneg _
  have products : Real.cos a ^ 2 * p * p + Real.sin a ^ 2 * q * q ≤ p := by
    have first : Real.sin a ^ 2 * q * q ≤ Real.sin a ^ 2 * (p * p) := by
      rw [mul_assoc]
      exact mul_le_mul_of_nonneg_left (mul_le_mul half half q0 (q0.trans half)) (sq_nonneg _)
    nlinarith
  linarith

/-- A form without a third angle is far from both swap points. -/
theorem not_near_swap {f : Form ℝ} (c : f.c = 0) :
    ¬ (f.isNear 0.999999999 (Real.pi / 4) (Real.pi / 4) (Real.pi / 4) ||
      f.isNear 0.999999999 (Real.pi / 4) (Real.pi / 4) (-(Real.pi / 4))) = true := by
  have half : Real.cos (Real.pi / 4) ^ 2 = 1 / 2 ∧ Real.sin (Real.pi / 4) ^ 2 = 1 / 2 := by
    rw [Real.cos_pi_div_four, Real.sin_pi_div_four, div_pow, Real.sq_sqrt (by norm_num)]
    norm_num
  have far {z : ℝ} (cosine : Real.cos z ^ 2 = 1 / 2) (sine : Real.sin z ^ 2 = 1 / 2) :
      ¬ f.isNear 0.999999999 (Real.pi / 4) (Real.pi / 4) z = true := by
    have first := Real.sin_sq_add_cos_sq (f.a - Real.pi / 4)
    have second := Real.sin_sq_add_cos_sq (f.b - Real.pi / 4)
    rw [isNear_iff, c, traceFidelity_canonicalTrace, mul_pow, mul_pow, mul_pow, mul_pow, zero_sub, Real.cos_neg,
      Real.sin_neg, neg_sq, cosine, sine]
    set p := Real.cos (f.a - Real.pi / 4) ^ 2
    set q := Real.sin (f.a - Real.pi / 4) ^ 2
    have p0 : 0 ≤ p := sq_nonneg _
    have q0 : 0 ≤ q := sq_nonneg _
    norm_num
    nlinarith [sq_nonneg (Real.cos (f.b - Real.pi / 4)), sq_nonneg (Real.sin (f.b - Real.pi / 4))]
  rw [Bool.or_eq_true, not_or]
  refine ⟨far half.1 half.2, far ?_ ?_⟩
  · rw [Real.cos_neg, half.1]
  · rw [Real.sin_neg, neg_sq, half.2]

theorem closestPartialSwap_single {a : ℝ} (nonneg : 0 ≤ a) : a / 3 ≤ closestPartialSwap a 0 0 := by
  have value : closestPartialSwap a 0 0 = a / 3 + a ^ 3 * (6 + 2 * a ^ 2) / 243 := by
    simp only [closestPartialSwap, Exact.numeral_eq]
    ring
  rw [value]
  have : 0 ≤ a ^ 3 * (6 + 2 * a ^ 2) / 243 := by positivity
  linarith

/-- A form with one angle that is not tiny is kept as a controlled one. -/
theorem nearestClass_controlled {f : Form ℝ} (b : f.b = 0) (c : f.c = 0) (large : 1 / 1000 ≤ f.a) (small : f.a ≤ Real.pi / 4) :
    f.nearestClass 0.999999999 = .controlled := by
  have pi := Real.pi_pos
  have still : ¬ f.isNear 0.999999999 0 0 0 = true := by
    have sine := sq_sin_ge (x := f.a) (by linarith) small
    have circle := Real.sin_sq_add_cos_sq f.a
    rw [isNear_iff, b, c, traceFidelity_canonicalTrace, sub_zero, sub_zero, Real.cos_zero, Real.sin_zero]
    norm_num
    nlinarith
  obtain ⟨lower, upper⟩ := closestPartialSwap_mem small (b := 0) (c := 0) (by linarith) (by simp)
  have away := closestPartialSwap_single (a := f.a) (by linarith)
  set x := closestPartialSwap f.a 0 0
  have partial' {z : ℝ} (third : z = x ∨ z = -x) : ¬ f.isNear 0.999999999 x x z = true := by
    have bound := traceFidelity_pair_le (f.a - x) lower (upper.trans small) (c := 0 - z) (by
      rcases third with rfl | rfl
      · exact .inr (zero_sub _)
      · exact .inl (by ring))
    have sine := sq_sin_ge (x := x) (by linarith) (upper.trans small)
    rw [isNear_iff, b, c, zero_sub, not_le]
    norm_num at sine bound ⊢
    linarith
  have kept : f.isNear 0.999999999 f.a 0 0 = true := by
    rw [isNear_iff, b, c, traceFidelity_canonicalTrace, sub_self, sub_zero, Real.cos_zero, Real.sin_zero]
    norm_num
  unfold Form.nearestClass
  dsimp only
  rw [Exact.quarterPi_eq, Exact.zero_eq, b, c, neg_zero, if_neg still, if_neg (not_near_swap c),
    if_neg (partial' (.inl rfl)), if_neg (partial' (.inr rfl)), if_pos kept]

/-- Where the class of an interaction about one axis is the controlled one, its decomposition is exact. -/
theorem ofUnitary_single_of_class (k : Axis) (small : |t| ≤ Real.pi / 4) {o : Options ℝ}
    (controlled : ∀ f : Form ℝ, f.a = |t| → f.b = 0 → f.c = 0 → o.classFor f = .controlled)
    (possible : ∀ fidelity ∈ o.fidelity, fidelity ≤ 1) :
    ∃ target : Decomposition ℝ, Decomposition.ofUnitary (single k t) o = .ok target ∧ target.Fits (single k t) ∧
      target.reconstruct = single k t ∧ target.a = |t| ∧ target.b = 0 ∧ target.c = 0 := by
  obtain ⟨f, canonical, denotes, factored, a, b, c⟩ := canonicalForm_single k small
  have chosen := controlled f a b c
  obtain ⟨fit, fitted, trace, fitA, fitB, fitC⟩ : ∃ fit : Fitted ℝ, f.fit .controlled = .ok fit ∧
      fit.trace = canonicalTrace (f.a - f.a) (f.b - 0) (f.c - 0) ∧ fit.form.a = f.a ∧ fit.form.b = 0 ∧ fit.form.c = 0 := by
    refine ⟨_, by rw [Form.fit, toControlled, ofUnitary_eq, ofUnitary_eq]; rfl, ?_, rfl, Exact.zero_eq, Exact.zero_eq⟩
    simp only [Form.fittedTo, Exact.zero_eq]
  have perfect : traceFidelity fit.trace = 1 := by
    rw [trace, b, c, traceFidelity_canonicalTrace, sub_self, sub_zero, Real.cos_zero, Real.sin_zero]
    norm_num
  have reached : o.missed? (traceFidelity fit.trace) = none := by
    rw [perfect, Options.missed?, Option.filter_eq_none_iff]
    intro fidelity requested
    have most := possible fidelity requested
    simp only [decide_eq_true_eq, not_lt]
    norm_num at most ⊢
    linarith
  obtain ⟨decomposed, fits⟩ := ofForm_fits_class factored (canonicalForm_inChamber canonical)
    (by rw [chosen]; exact fitted) reached
  rw [denotes] at decomposed fits
  refine ⟨_, ?_, fits, fits.exact (single_unitary k t) perfect, fitA.trans a, fitB, fitC⟩
  rw [Decomposition.ofUnitary, canonical]
  exact decomposed

/-- An angle that is not tiny is kept. -/
theorem ofUnitary_single (k : Axis) (large : 1 / 1000 ≤ |t|) (small : |t| ≤ Real.pi / 4) :
    ∃ target : Decomposition ℝ, Decomposition.ofUnitary (single k t) .default = .ok target ∧ target.Fits (single k t) ∧
      target.reconstruct = single k t ∧ target.a = |t| ∧ target.b = 0 ∧ target.c = 0 := by
  apply ofUnitary_single_of_class k small
  · intro f a b c
    exact nearestClass_controlled b c (large.trans_eq a.symm) (a.trans_le small)
  · intro fidelity requested
    rw [default_eq] at requested
    obtain rfl := Option.some.inj requested
    norm_num

end Single

end Entangle.Weyl

end
