import Mathlib
import Entangle.Weyl.Decomposition
import Entangle.Proofs.ChamberFolding
import Entangle.Proofs.Commutants

/-!
# Fitted forms

Fitting a form to a symmetry class moves the angles to a point of the class, and moves what commutes
with the interaction at that point from the inner to the outer factors. The fitted form therefore
denotes the original factors around the moved angles, and its overlap with the original is the trace
of the interaction by the difference of the angles.
-/

noncomputable section

namespace Entangle.Weyl

open Matrix Complex
open scoped ComplexOrder

/-- The form denotes the original factors around other angles, and the trace is the overlap of the two. -/
structure Fitted.At (f : Form ℝ) (fit : Fitted ℝ) (η : Axis → ℝ) : Prop where
  matrix : fit.form.matrix.toMatrix = dressed f.phase f.k1l f.k1r f.k2l f.k2r η
  trace : fit.trace.toComplex = (coupling (angles f.a f.b f.c - η)).trace

theorem angles_sub (a b c a' b' c' : ℝ) :
    angles (a - a') (b - b') (c - c') = angles a b c - angles a' b' c' := by
  funext k
  cases k <;> rfl

theorem Fitted.At.of_matrix {f out : Form ℝ}
    (same : out.matrix.toMatrix =
      dressed f.phase f.k1l f.k1r f.k2l f.k2r (angles out.a out.b out.c)) :
    Fitted.At f (f.fittedTo out) (angles out.a out.b out.c) := by
  refine ⟨same, ?_⟩
  rw [Form.fittedTo, toComplex_canonicalTrace, angles_sub]

section Moves

variable {phase e : ℝ} {k1l k1r k2l k2r w w' v v' : Mat2 ℝ} {η : Axis → ℝ}

/-- Moving factors through the interaction keeps the unitary. -/
theorem dressed_move
    (passes : exp (e * I) • (tensor w.toMatrix w'.toMatrix * coupling η * tensor v.toMatrix v'.toMatrix) =
      coupling η * tensor k2l.toMatrix k2r.toMatrix) :
    dressed (phase + e) (k1l * w) (k1r * w') v v' η = dressed phase k1l k1r k2l k2r η := by
  calc
    _ = exp (phase * I) • (tensor k1l.toMatrix k1r.toMatrix * (exp (e * I) •
        (tensor w.toMatrix w'.toMatrix * coupling η * tensor v.toMatrix v'.toMatrix))) := by
      rw [dressed, Mat2.toMatrix_mul, Mat2.toMatrix_mul, ← tensor_mul_tensor]
      push_cast
      rw [add_mul, Complex.exp_add, Matrix.mul_smul, smul_smul]
      simp only [Matrix.mul_assoc]
    _ = _ := by rw [passes, dressed, Matrix.mul_assoc]

theorem dressed_pass
    (passes : tensor w.toMatrix w'.toMatrix * coupling η * tensor v.toMatrix v'.toMatrix =
      coupling η * tensor k2l.toMatrix k2r.toMatrix) :
    dressed phase (k1l * w) (k1r * w') v v' η = dressed phase k1l k1r k2l k2r η := by
  have moved : dressed (phase + 0) (k1l * w) (k1r * w') v v' η = dressed phase k1l k1r k2l k2r η :=
    dressed_move (by simpa using passes)
  rwa [add_zero] at moved

end Moves

/-- Half turns around two inverse factors leave them inverse. -/
theorem halfTurn_sandwich (k : Axis) {a b : OneQubit} (inverse : a * b = 1) :
    k.halfTurn * a * k.halfTurn * (k.halfTurn * b * k.halfTurn) = 1 := by
  calc
    _ = k.halfTurn * a * (k.halfTurn * k.halfTurn) * b * k.halfTurn := by simp only [Matrix.mul_assoc]
    _ = -(k.halfTurn * (a * b) * k.halfTurn) := by
      rw [halfTurn_mul_self]
      simp [Matrix.mul_assoc]
    _ = 1 := by rw [inverse, Matrix.mul_one, halfTurn_mul_self, neg_neg]

section Rotated

variable {l r : Euler.Angles ℝ} {o i : Axis} {c w : TwoQubit}

/-- The outermost rotations of both inner factors move through the interaction. -/
theorem move_both (passes : w * c = c * tensor (o.rotation l.phi) (o.rotation r.phi)) :
    exp ((l.phase + r.phase : ℝ) * I) • (w * c * tensor (i.rotation l.theta * o.rotation l.lambda)
      (i.rotation r.theta * o.rotation r.lambda)) = c * tensor (l.product o i) (r.product o i) := by
  rw [passes, Euler.Angles.product, Euler.Angles.product, tensor_smul_left, tensor_smul_right, smul_smul,
    Matrix.mul_smul, ← Complex.exp_add, ← add_mul, ← Complex.ofReal_add, Matrix.mul_assoc, tensor_mul_tensor,
    Matrix.mul_assoc, Matrix.mul_assoc]

/-- The outermost rotation of one inner factor moves through the interaction, with what the other has to
make up for. -/
theorem move_one {q q' n : OneQubit} (inverse : q * q' = 1)
    (passes : w * c = c * tensor (o.rotation l.phi) q) :
    exp (l.phase * I) • (w * c * tensor (i.rotation l.theta * o.rotation l.lambda) (q' * n)) =
      c * tensor (l.product o i) n := by
  rw [passes, Euler.Angles.product, tensor_smul_left, Matrix.mul_smul, Matrix.mul_assoc, tensor_mul_tensor,
    Matrix.mul_assoc, ← Matrix.mul_assoc q, inverse, Matrix.one_mul]

end Rotated

theorem ofUnitary_eq (u : Mat2 ℝ) (basis : Euler.Basis) :
    Euler.Angles.ofUnitary u basis = .ok (Euler.Angles.inBasis u basis) := by
  rw [Euler.Angles.ofUnitary, if_pos (Square.isFinite_eq u)]

section Classes

variable {f : Form ℝ}

theorem angles_zero : angles 0 0 0 = 0 := by
  funext k
  cases k <;> rfl

theorem toIdentity_at (f : Form ℝ) : ∃ η, Fitted.At f (toIdentity f) η := by
  refine ⟨_, Fitted.At.of_matrix ?_⟩
  rw [toMatrix_form]
  dsimp only
  apply dressed_pass
  rw [Exact.zero_eq, angles_zero, coupling_zero]
  simp

theorem toSwap_at (f : Form ℝ) : ∃ η, Fitted.At f (toSwap f) η := by
  unfold toSwap
  split
  · refine ⟨_, Fitted.At.of_matrix ?_⟩
    rw [toMatrix_form]
    dsimp only
    apply dressed_pass
    rw [Exact.quarterPi_eq, tensor_mul_coupling_eighth]
    simp
  · refine ⟨angles (Real.pi / 4) (Real.pi / 4) (-(Real.pi / 4)), ?_, ?_⟩
    · rw [toMatrix_form]
      dsimp only
      rw [Exact.quarterPi_eq, Exact.halfPi_eq]
      calc
        _ = dressed (f.phase + Real.pi / 2) (f.k1l * ipz) (f.k1r * ipz) f.k2l f.k2r
            (angles (Real.pi / 4) (Real.pi / 4) (Real.pi / 4)) := by
          apply dressed_pass
          rw [tensor_mul_coupling_eighth]
          simp
        _ = _ := by
          rw [dressed_turn toMatrix_ipz (.inl rfl)]
          congr 1
          funext k
          cases k <;> simp [angles]
          ring
    · have first : Real.pi / 2 - f.a - Real.pi / 4 = -(f.a - Real.pi / 4) := by ring
      have third : -f.c - Real.pi / 4 = -(f.c - -(Real.pi / 4)) := by ring
      dsimp only
      rw [Exact.quarterPi_eq, Exact.halfPi_eq, first, third, toComplex_canonicalTrace, ← angles_sub,
        trace_coupling, trace_coupling]
      simp only [angles, Complex.ofReal_neg, Complex.cos_neg, Complex.sin_neg]
      ring

theorem toPartialSwap_at (inner : f.k2l.Unitary) : ∃ η, Fitted.At f (toPartialSwap f) η := by
  have inverse : f.k2l.toMatrix * f.k2l.toMatrixᴴ = 1 := mem_unitaryGroup_iff.mp inner
  refine ⟨_, Fitted.At.of_matrix ?_⟩
  rw [toMatrix_form]
  dsimp only
  apply dressed_pass
  rw [tensor_self_mul_coupling, Matrix.mul_assoc, tensor_mul_tensor, Mat2.toMatrix_mul,
    Square.toMatrix_dagger, Square.toMatrix_identity, ← Matrix.mul_assoc f.k2l.toMatrix, inverse,
    Matrix.one_mul, Matrix.mul_one]

theorem toPartialSwapFlip_at (inner : f.k2l.Unitary) : ∃ η, Fitted.At f (toPartialSwapFlip f) η := by
  have inverse : f.k2l.toMatrix * f.k2l.toMatrixᴴ = 1 := mem_unitaryGroup_iff.mp inner
  refine ⟨_, Fitted.At.of_matrix ?_⟩
  rw [toMatrix_form]
  dsimp only
  set x := closestPartialSwap f.a f.b (-f.c)
  have reversed : Axis.z.sense * angles x x (-x) = angles (-x) (-x) (-x) := by
    funext k
    cases k <;> simp [Axis.sense, angles]
  have commutes : tensor f.k2l.toMatrix f.k2l.toMatrix * coupling (Axis.z.sense * angles x x (-x)) =
      coupling (Axis.z.sense * angles x x (-x)) * tensor f.k2l.toMatrix f.k2l.toMatrix := by
    rw [reversed, tensor_self_mul_coupling]
  rw [Mat2.mul_assoc f.k1r, Mat2.mul_assoc f.k1r]
  apply dressed_pass
  rw [Mat2.toMatrix_mul, Mat2.toMatrix_mul, toMatrix_ipz, flipped_mul_coupling _ commutes, Matrix.mul_assoc,
    tensor_mul_tensor, Mat2.toMatrix_mul, Mat2.toMatrix_mul, Mat2.toMatrix_mul, toMatrix_ipz,
    Square.toMatrix_dagger, ← Matrix.mul_assoc, halfTurn_sandwich .z inverse]
  simp

theorem toControlled_at (innerL : f.k2l.Unitary) (innerR : f.k2r.Unitary) :
    ∃ fit η, toControlled f = .ok fit ∧ Fitted.At f fit η := by
  refine ⟨_, _, by rw [toControlled, ofUnitary_eq, ofUnitary_eq]; rfl, Fitted.At.of_matrix ?_⟩
  rw [toMatrix_form]
  dsimp only
  apply dressed_move
  rw [Mat2.toMatrix_mul, Mat2.toMatrix_mul, Exact.zero_eq]
  simp only [Gate.toMatrix_rxMatrix, Gate.toMatrix_ryMatrix]
  rw [move_both (rotation_x_mul_coupling_single _ _ f.a)]
  congr 2
  · exact Euler.xyx_product innerL
  · exact Euler.xyx_product innerR

theorem toMirrorControlled_at (innerL : f.k2l.Unitary) (innerR : f.k2r.Unitary) :
    ∃ fit η, toMirrorControlled f = .ok fit ∧ Fitted.At f fit η := by
  refine ⟨_, _, by rw [toMirrorControlled, ofUnitary_eq, ofUnitary_eq]; rfl, Fitted.At.of_matrix ?_⟩
  rw [toMatrix_form]
  dsimp only
  apply dressed_move
  rw [Mat2.toMatrix_mul, Mat2.toMatrix_mul, Exact.quarterPi_eq]
  simp only [Gate.toMatrix_rzMatrix, Gate.toMatrix_ryMatrix]
  rw [move_both (rotation_z_mul_coupling_eighths _ _ f.c)]
  congr 2
  · exact Euler.zyz_product innerL
  · exact Euler.zyz_product innerR

theorem toAab_at (inner : f.k2l.Unitary) : ∃ fit η, toAab f = .ok fit ∧ Fitted.At f fit η := by
  refine ⟨_, _, by rw [toAab, ofUnitary_eq]; rfl, Fitted.At.of_matrix ?_⟩
  rw [toMatrix_form]
  dsimp only
  apply dressed_move
  rw [Mat2.toMatrix_mul, Mat2.toMatrix_mul]
  simp only [Gate.toMatrix_rzMatrix, Gate.toMatrix_ryMatrix]
  rw [move_one (Axis.rotation_mul_neg _ _) (rotation_z_mul_coupling _ _ f.c)]
  congr 2
  exact Euler.zyz_product inner

theorem toAbb_at (inner : f.k2l.Unitary) : ∃ fit η, toAbb f = .ok fit ∧ Fitted.At f fit η := by
  refine ⟨_, _, by rw [toAbb, ofUnitary_eq]; rfl, Fitted.At.of_matrix ?_⟩
  rw [toMatrix_form]
  dsimp only
  apply dressed_move
  rw [Mat2.toMatrix_mul, Mat2.toMatrix_mul]
  simp only [Gate.toMatrix_rxMatrix, Gate.toMatrix_ryMatrix]
  rw [move_one (Axis.rotation_mul_neg _ _) (rotation_x_mul_coupling _ f.a _)]
  congr 2
  exact Euler.xyx_product inner

theorem toAbmb_at (inner : f.k2l.Unitary) : ∃ fit η, toAbmb f = .ok fit ∧ Fitted.At f fit η := by
  refine ⟨_, _, by rw [toAbmb, ofUnitary_eq]; rfl, Fitted.At.of_matrix ?_⟩
  rw [toMatrix_form]
  dsimp only
  have reversed (b : ℝ) : Axis.z.sense * angles f.a b (-b) = angles (-f.a) (-b) (-b) := by
    funext k
    cases k <;> simp [Axis.sense, angles]
  rw [Mat2.mul_assoc f.k1r, Mat2.mul_assoc f.k1r]
  apply dressed_move
  simp only [Mat2.toMatrix_mul, Gate.toMatrix_rxMatrix, Gate.toMatrix_ryMatrix, toMatrix_ipz]
  rw [move_one (halfTurn_sandwich .z (Axis.rotation_mul_neg _ _))
    (flipped_mul_coupling .z (by rw [reversed, rotation_x_mul_coupling]))]
  congr 2
  exact Euler.xyx_product inner

end Classes

/-- Every class fits a form with unitary inner factors. -/
theorem fit_at {f : Form ℝ} (innerL : f.k2l.Unitary) (innerR : f.k2r.Unitary) (k : Class) :
    ∃ fit η, f.fit k = .ok fit ∧ Fitted.At f fit η := by
  cases k with
  | general => exact ⟨_, _, rfl, Fitted.At.of_matrix (toMatrix_form f)⟩
  | identity =>
    obtain ⟨η, fits⟩ := toIdentity_at f
    exact ⟨_, η, rfl, fits⟩
  | swap =>
    obtain ⟨η, fits⟩ := toSwap_at f
    exact ⟨_, η, rfl, fits⟩
  | partialSwap =>
    obtain ⟨η, fits⟩ := toPartialSwap_at innerL
    exact ⟨_, η, rfl, fits⟩
  | partialSwapFlip =>
    obtain ⟨η, fits⟩ := toPartialSwapFlip_at innerL
    exact ⟨_, η, rfl, fits⟩
  | controlled => exact toControlled_at innerL innerR
  | mirrorControlled => exact toMirrorControlled_at innerL innerR
  | aab => exact toAab_at innerL
  | abb => exact toAbb_at innerL
  | abmb => exact toAbmb_at innerL

/-! ## Overlap and fidelity -/

theorem dressed_mem_unitary (phase : ℝ) {k1l k1r k2l k2r : Mat2 ℝ} (outerL : k1l.Unitary)
    (outerR : k1r.Unitary) (innerL : k2l.Unitary) (innerR : k2r.Unitary) (θ : Axis → ℝ) :
    dressed phase k1l k1r k2l k2r θ ∈ unitaryGroup (Fin 4) ℂ := by
  have product : tensor k1l.toMatrix k1r.toMatrix * coupling θ * tensor k2l.toMatrix k2r.toMatrix ∈
      unitaryGroup (Fin 4) ℂ :=
    mul_mem (mul_mem (tensor_mem_unitary outerL outerR) (coupling_mem_unitary θ))
      (tensor_mem_unitary innerL innerR)
  exact exp_smul_mem_unitary phase product

theorem Form.Factored.reconstruct_unitary {target : Decomposition ℝ} (factored : target.Factored) :
    target.reconstruct.Unitary := by
  rw [Square.Unitary, Decomposition.reconstruct, toMatrix_form]
  exact dressed_mem_unitary _ factored.outerLeft factored.outerRight factored.innerLeft factored.innerRight _

/-- The overlap of two interactions between the same unitary factors. -/
theorem trace_dressed {phase : ℝ} {k1l k1r k2l k2r : Mat2 ℝ} (outerL : k1l.Unitary) (outerR : k1r.Unitary)
    (innerL : k2l.Unitary) (innerR : k2r.Unitary) (η θ : Axis → ℝ) :
    ((dressed phase k1l k1r k2l k2r η)ᴴ * dressed phase k1l k1r k2l k2r θ).trace =
      (coupling (θ - η)).trace := by
  set outer := tensor k1l.toMatrix k1r.toMatrix with outerDef
  set inner := tensor k2l.toMatrix k2r.toMatrix with innerDef
  have outerUnit : outerᴴ * outer = 1 := mem_unitaryGroup_iff'.mp (tensor_mem_unitary outerL outerR)
  have innerUnit : inner * innerᴴ = 1 := mem_unitaryGroup_iff.mp (tensor_mem_unitary innerL innerR)
  have product : (dressed phase k1l k1r k2l k2r η)ᴴ * dressed phase k1l k1r k2l k2r θ =
      innerᴴ * coupling (θ - η) * inner := by
    rw [dressed, dressed, ← outerDef, ← innerDef, Matrix.conjTranspose_smul, Matrix.smul_mul, Matrix.mul_smul,
      smul_smul, star_exp_mul_exp, one_smul, Matrix.conjTranspose_mul, Matrix.conjTranspose_mul, coupling_conjTranspose,
      sub_eq_neg_add, ← coupling_mul]
    calc
      _ = innerᴴ * (coupling (-η) * (outerᴴ * outer) * coupling θ) * inner := by
        simp only [Matrix.mul_assoc]
      _ = _ := by rw [outerUnit, Matrix.mul_one]
  rw [product, Matrix.trace_mul_comm, ← Matrix.mul_assoc, innerUnit, Matrix.one_mul]

/-- A unitary whose trace is its size is the identity. -/
theorem eq_one_of_trace {m : TwoQubit} (unitary : m ∈ unitaryGroup (Fin 4) ℂ) (full : m.trace = 4) :
    m = 1 := by
  have inverse : mᴴ * m = 1 := mem_unitaryGroup_iff'.mp unitary
  have zero : ((m - 1)ᴴ * (m - 1)).trace = 0 := by
    rw [Matrix.conjTranspose_sub, Matrix.conjTranspose_one, Matrix.sub_mul, Matrix.mul_sub, inverse,
      Matrix.mul_one, Matrix.one_mul, Matrix.trace_sub, Matrix.trace_sub, Matrix.trace_sub,
      Matrix.trace_conjTranspose, full, Matrix.trace_one, Fintype.card_fin]
    norm_num
  exact sub_eq_zero.mp (Matrix.trace_conjTranspose_mul_self_eq_zero_iff.mp zero)

/-- The decomposition that a fitted form gives. -/
def Fitted.decomposition (f : Form ℝ) (fit : Fitted ℝ) (o : Options ℝ) : Decomposition ℝ where
  toForm := { fit.form with phase := fit.form.phase + fit.trace.arg }
  fitted := o.classFor f
  calculated := traceFidelity fit.trace
  requested := o.fidelity
  unitary := f.matrix

theorem ofForm_eq {f : Form ℝ} {fit : Fitted ℝ} (o : Options ℝ) (fitted : f.fit (o.classFor f) = .ok fit) :
    Decomposition.ofForm f.matrix f o =
      match o.missed? (traceFidelity fit.trace) with
      | some requested =>
          Outcome.step "New" (.error (.fidelity (o.classFor f) (traceFidelity fit.trace) requested))
      | none => .ok (fit.decomposition f o) := by
  rw [Decomposition.ofForm]
  dsimp only
  rw [fitted]
  simp only [bind, Except.bind]
  cases o.missed? (traceFidelity fit.trace) <;> rfl

theorem toMatrix_reconstruct (f : Form ℝ) (fit : Fitted ℝ) (o : Options ℝ) :
    (fit.decomposition f o).reconstruct.toMatrix =
      exp (fit.trace.arg * I) • fit.form.matrix.toMatrix := by
  rw [Decomposition.reconstruct, toMatrix_form, toMatrix_form, dressed, dressed, smul_smul, ← Complex.exp_add,
    ← add_mul, ← Complex.ofReal_add, add_comm]
  rfl

theorem reconstruct_mem_unitary {f : Form ℝ} {fit : Fitted ℝ} {η : Axis → ℝ} (outerL : f.k1l.Unitary)
    (outerR : f.k1r.Unitary) (innerL : f.k2l.Unitary) (innerR : f.k2r.Unitary) (fits : Fitted.At f fit η)
    (o : Options ℝ) : (fit.decomposition f o).reconstruct.toMatrix ∈ unitaryGroup (Fin 4) ℂ := by
  rw [toMatrix_reconstruct, fits.matrix]
  exact exp_smul_mem_unitary _ (dressed_mem_unitary f.phase outerL outerR innerL innerR η)

/-- The phase that a decomposition adds makes its overlap with the original the modulus of the trace. -/
theorem trace_reconstruct {f : Form ℝ} {fit : Fitted ℝ} {η : Axis → ℝ} (outerL : f.k1l.Unitary)
    (outerR : f.k1r.Unitary) (innerL : f.k2l.Unitary) (innerR : f.k2r.Unitary) (fits : Fitted.At f fit η)
    (o : Options ℝ) :
    ((fit.decomposition f o).reconstruct.toMatrixᴴ * f.matrix.toMatrix).trace = (fit.trace.abs : ℂ) := by
  have polar := Complex.norm_mul_exp_arg_mul_I fit.trace.toComplex
  rw [← Cx.abs_eq, ← Cx.arg_eq] at polar
  rw [toMatrix_reconstruct, Matrix.conjTranspose_smul, Matrix.smul_mul, Matrix.trace_smul, fits.matrix,
    toMatrix_form, trace_dressed outerL outerR innerL innerR, ← fits.trace, ← polar, smul_eq_mul]
  linear_combination (fit.trace.abs : ℂ) * star_exp_mul_exp fit.trace.arg

/-- Whatever class a form is fitted to, the overlap of the decomposition with the form is real and not
negative, and gives the fidelity; a perfect fidelity means that the decomposition denotes the same
unitary. -/
theorem ofForm_overlap {f : Form ℝ} (outerL : f.k1l.Unitary) (outerR : f.k1r.Unitary)
    (innerL : f.k2l.Unitary) (innerR : f.k2r.Unitary) (o : Options ℝ) :
    ∃ out : Decomposition ℝ, out.fitted = o.classFor f ∧
      Decomposition.ofForm f.matrix f o = (match o.missed? out.calculated with
        | some requested =>
            Outcome.step "New" (.error (.fidelity (o.classFor f) out.calculated requested))
        | none => .ok out) ∧
      ∃ t : ℝ, 0 ≤ t ∧ Mat4.trace (out.reconstruct.dagger * f.matrix) = Cx.ofReal t ∧
        out.calculated = (4 + t ^ 2) / 20 ∧ (out.calculated = 1 → out.reconstruct = f.matrix) := by
  obtain ⟨fit, η, fitted, fits⟩ := fit_at innerL innerR (o.classFor f)
  have overlap := trace_reconstruct outerL outerR innerL innerR fits o
  have size : 0 ≤ fit.trace.abs := by
    rw [Cx.abs_eq]
    exact norm_nonneg _
  have fidelity : traceFidelity fit.trace = (4 + fit.trace.abs ^ 2) / 20 := by
    simp [traceFidelity, pow_two]
  refine ⟨fit.decomposition f o, rfl, ofForm_eq o fitted, fit.trace.abs, size, ?_, fidelity, ?_⟩
  · apply Cx.toComplex_injective
    rw [Mat4.toComplex_trace, Mat4.toMatrix_mul, Square.toMatrix_dagger, overlap, Cx.toComplex_ofReal]
  · intro perfect
    have square : fit.trace.abs ^ 2 = 4 ^ 2 := by
      have value : (4 + fit.trace.abs ^ 2) / 20 = 1 := fidelity.symm.trans perfect
      linarith
    have full : fit.trace.abs = 4 := (pow_left_inj₀ size (by norm_num) two_ne_zero).mp square
    have unitary := reconstruct_mem_unitary outerL outerR innerL innerR fits o
    have original : f.matrix.toMatrix ∈ unitaryGroup (Fin 4) ℂ := by
      rw [toMatrix_form]
      exact dressed_mem_unitary f.phase outerL outerR innerL innerR _
    have product := eq_one_of_trace (mul_mem (Unitary.star_mem unitary) original) (by
      rw [star_eq_conjTranspose, overlap, full]
      norm_num)
    apply Square.toMatrix_injective
    rw [← Matrix.mul_one (Decomposition.reconstruct _).toMatrix, ← product, ← Matrix.mul_assoc,
      mem_unitaryGroup_iff.mp unitary, Matrix.one_mul]

/-- A form with two different angles and no one-qubit factors. -/
def plainForm : Form ℝ where
  a := Real.pi / 4
  b := Real.pi / 8
  c := 0
  phase := 0
  k1l := Square.identity
  k1r := Square.identity
  k2l := Square.identity
  k2r := Square.identity

theorem ofForm_overlap_abb :
    ∃ out : Decomposition ℝ, out.fitted = .abb ∧
      Decomposition.ofForm plainForm.matrix plainForm (Options.default.withoutFidelity.withClass .abb) =
        .ok out ∧
      ∃ t : ℝ, 0 ≤ t ∧ Mat4.trace (out.reconstruct.dagger * plainForm.matrix) = Cx.ofReal t ∧
        out.calculated = (4 + t ^ 2) / 20 ∧ (out.calculated = 1 → out.reconstruct = plainForm.matrix) :=
  ofForm_overlap (f := plainForm) Square.identity_unitary Square.identity_unitary Square.identity_unitary
    Square.identity_unitary (Options.default.withoutFidelity.withClass .abb)

end Entangle.Weyl

end
