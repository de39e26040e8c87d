import Mathlib
import Entangle.Proofs.SingleAxis

/-!
# Coordinates under one-qubit operations

One-qubit operations before and after a unitary, and a phase, leave a product of the unitary with its transpose
unchanged up to a sign and a change of basis. Of an interaction this product has the doubled phases as eigenvalues,
and in the chamber the sums of two phases are too small for a sign to be mistaken for a turn: the phases of two
equivalent interactions are then the same up to order. Since the chamber fixes their order too, it meets each
class of equivalent unitaries once, apart from its outer face.
-/

noncomputable section

namespace Entangle.Weyl

open Matrix Complex

/-! ## Equivalence under one-qubit operations -/

/-- The second matrix is the first between one-qubit unitaries, under a phase. -/
def UpToLocal (w w' : TwoQubit) : Prop :=
  ∃ (t : ℝ) (a b c d : OneQubit), a ∈ unitaryGroup (Fin 2) ℂ ∧ b ∈ unitaryGroup (Fin 2) ℂ ∧
    c ∈ unitaryGroup (Fin 2) ℂ ∧ d ∈ unitaryGroup (Fin 2) ℂ ∧ w' = exp (t * I) • (tensor a b * w * tensor c d)

theorem star_tensor_mul_tensor {a b : OneQubit} (first : a ∈ unitaryGroup (Fin 2) ℂ) (second : b ∈ unitaryGroup (Fin 2) ℂ) :
    tensor (star a) (star b) * tensor a b = 1 := by
  rw [tensor_mul_tensor, mem_unitaryGroup_iff'.mp first, mem_unitaryGroup_iff'.mp second, tensor_one_one]

theorem UpToLocal.refl (w : TwoQubit) : UpToLocal w w := by
  refine ⟨0, 1, 1, 1, 1, one_mem _, one_mem _, one_mem _, one_mem _, ?_⟩
  simp

theorem UpToLocal.symm {w w' : TwoQubit} (related : UpToLocal w w') : UpToLocal w' w := by
  obtain ⟨t, a, b, c, d, ha, hb, hc, hd, rfl⟩ := related
  refine ⟨-t, star a, star b, star c, star d, Unitary.star_mem ha, Unitary.star_mem hb, Unitary.star_mem hc,
    Unitary.star_mem hd, ?_⟩
  have outer := star_tensor_mul_tensor ha hb
  have inner : tensor c d * tensor (star c) (star d) = 1 := mul_eq_one_comm.mp (star_tensor_mul_tensor hc hd)
  symm
  calc
    _ = (exp ((-t : ℝ) * I) * exp (t * I)) •
        ((tensor (star a) (star b) * tensor a b) * w * (tensor c d * tensor (star c) (star d))) := by
      simp only [Matrix.mul_smul, Matrix.smul_mul, smul_smul, Matrix.mul_assoc]
    _ = w := by
      rw [outer, inner, Matrix.one_mul, Matrix.mul_one, ← Complex.exp_add, Complex.ofReal_neg, neg_mul,
        neg_add_cancel, Complex.exp_zero, one_smul]

theorem UpToLocal.trans {w w' w'' : TwoQubit} (first : UpToLocal w w') (second : UpToLocal w' w'') : UpToLocal w w'' := by
  obtain ⟨t, a, b, c, d, ha, hb, hc, hd, rfl⟩ := first
  obtain ⟨t', a', b', c', d', ha', hb', hc', hd', rfl⟩ := second
  refine ⟨t' + t, a' * a, b' * b, c * c', d * d', mul_mem ha' ha, mul_mem hb' hb, mul_mem hc hc', mul_mem hd hd', ?_⟩
  rw [← tensor_mul_tensor, ← tensor_mul_tensor]
  push_cast
  rw [add_mul, Complex.exp_add]
  simp only [Matrix.mul_smul, Matrix.smul_mul, smul_smul, Matrix.mul_assoc]

/-- A form is equivalent to its interaction. -/
theorem Form.Factored.upToLocal {f : Form ℝ} (factored : f.Factored) :
    UpToLocal (coupling (angles f.a f.b f.c)) f.matrix.toMatrix :=
  ⟨f.phase, f.k1l.toMatrix, f.k1r.toMatrix, f.k2l.toMatrix, f.k2r.toMatrix, factored.outerLeft, factored.outerRight,
    factored.innerLeft, factored.innerRight, toMatrix_form f⟩

/-- An interaction with two angles reversed is equivalent to it. -/
theorem upToLocal_sense (k : Axis) (θ : Axis → ℝ) : UpToLocal (coupling θ) (coupling (k.sense * θ)) := by
  have turn := k.halfTurn_mem_unitary
  have back : tensor 1 k.halfTurn * tensor 1 (star k.halfTurn) = 1 := by
    rw [tensor_mul_tensor, mem_unitaryGroup_iff.mp turn, Matrix.one_mul, tensor_one_one]
  refine ⟨0, 1, k.halfTurn, 1, star k.halfTurn, one_mem _, turn, one_mem _, Unitary.star_mem turn, ?_⟩
  rw [halfTurn_right_mul_coupling, Matrix.mul_assoc, back]
  simp

/-! ## The product with the transpose -/

/-- A half turn about the second axis carries a one-qubit matrix to its adjugate's transpose. -/
theorem transpose_mul_halfTurn_mul (a : OneQubit) : aᵀ * Axis.y.halfTurn * a = a.det • Axis.y.halfTurn := by
  rw [Matrix.det_fin_two]
  ext i j
  fin_cases i <;> fin_cases j <;> simp [Axis.halfTurn, Matrix.mul_apply, Fin.sum_univ_two] <;> ring

theorem transpose_mul_pair_mul (a b : OneQubit) :
    (tensor a b)ᵀ * Axis.y.pair * tensor a b = (a.det * b.det) • Axis.y.pair := by
  rw [Axis.pair, tensor_transpose, tensor_mul_tensor, tensor_mul_tensor, transpose_mul_halfTurn_mul,
    transpose_mul_halfTurn_mul, tensor_smul_left, tensor_smul_right, smul_smul]

/-- The product of a matrix with its transpose in the magic basis. -/
def gram (w : TwoQubit) : TwoQubit := Axis.y.pair * wᵀ * Axis.y.pair * w

/-- In the magic basis it is the product with the transpose. -/
theorem gram_inMagic (m : TwoQubit) : gram (inMagic m) = inMagic (mᵀ * m) := by
  have left : Axis.y.pair * (magicInverse : Mat4 ℝ).toMatrixᵀ = (1 / 2 : ℂ) • (magic : Mat4 ℝ).toMatrix := by
    have half : Axis.y.pair = (1 / 2 : ℂ) • ((magic : Mat4 ℝ).toMatrix * magic.toMatrixᵀ) := by
      rw [magic_mul_transpose, smul_smul]
      norm_num
    rw [half, Matrix.smul_mul, Matrix.mul_assoc, ← Matrix.transpose_mul, magicInverse_mul_magic, Matrix.transpose_one,
      Matrix.mul_one]
  have right : (magic : Mat4 ℝ).toMatrixᵀ * Axis.y.pair = (2 : ℂ) • (magicInverse : Mat4 ℝ).toMatrix := by
    calc
      _ = (magicInverse : Mat4 ℝ).toMatrix * (magic.toMatrix * magic.toMatrixᵀ) * Axis.y.pair := by
        rw [← Matrix.mul_assoc, magicInverse_mul_magic, Matrix.one_mul]
      _ = _ := by
        rw [magic_mul_transpose, Matrix.mul_smul, Matrix.smul_mul, Matrix.mul_assoc, pair_mul_self, Matrix.mul_one]
  calc
    _ = Axis.y.pair * (magicInverse : Mat4 ℝ).toMatrixᵀ * mᵀ * ((magic : Mat4 ℝ).toMatrixᵀ * Axis.y.pair) * inMagic m := by
      simp only [gram, inMagic, Matrix.transpose_mul, Matrix.mul_assoc]
    _ = inMagic mᵀ * inMagic m := by
      rw [left, right, Matrix.smul_mul, Matrix.smul_mul, Matrix.mul_smul, smul_smul, ← inMagic]
      norm_num
    _ = _ := inMagic_mul _ _

theorem inMagic_square (m : Mat4 ℝ) : inMagic (m.transpose * m).toMatrix = gram (inMagic m.toMatrix) := by
  rw [Mat4.toMatrix_square, gram_inMagic]

theorem gram_smul (z : ℂ) (w : TwoQubit) : gram (z • w) = (z * z) • gram w := by
  simp only [gram, Matrix.transpose_smul, Matrix.mul_smul, Matrix.smul_mul, smul_smul]

/-- One-qubit operations after a matrix only scale the product. -/
theorem gram_outer (z : ℂ) (a b : OneQubit) (w : TwoQubit) :
    gram (z • (tensor a b * w)) = (z * z * (a.det * b.det)) • gram w := by
  have outer := transpose_mul_pair_mul a b
  calc
    _ = (z * z) • (Axis.y.pair * wᵀ * ((tensor a b)ᵀ * Axis.y.pair * tensor a b) * w) := by
      simp only [gram, Matrix.transpose_smul, Matrix.transpose_mul, Matrix.mul_smul, Matrix.smul_mul, smul_smul,
        Matrix.mul_assoc]
    _ = _ := by
      rw [outer, Matrix.mul_smul, Matrix.smul_mul, smul_smul, gram]

/-- The factor that one-qubit operations bring to the product. -/
def localFactor (z : ℂ) (a b c d : OneQubit) : ℂ := z * z * (a.det * b.det) * (c.det * d.det)

/-- Its square is the factor of the determinant. -/
theorem det_local (z : ℂ) (a b c d : OneQubit) (w : TwoQubit) :
    (z • (tensor a b * w * tensor c d)).det = localFactor z a b c d ^ 2 * w.det := by
  rw [Matrix.det_smul, Matrix.det_mul, Matrix.det_mul, det_tensor, det_tensor, Fintype.card_fin, localFactor]
  ring

/-- Between matrices of determinant one it is a sign. -/
theorem localFactor_mul_self {z : ℂ} {a b c d : OneQubit} {w : TwoQubit} (one : w.det = 1)
    (one' : (z • (tensor a b * w * tensor c d)).det = 1) : localFactor z a b c d * localFactor z a b c d = 1 := by
  rw [det_local, one, mul_one, pow_two] at one'
  exact one'

/-- One-qubit operations change the basis of the product and scale it. -/
theorem mul_gram_local (z : ℂ) (a b c d : OneQubit) (w : TwoQubit) :
    tensor c d * gram (z • (tensor a b * w * tensor c d)) = localFactor z a b c d • (gram w * tensor c d) := by
  have outer := transpose_mul_pair_mul a b
  have inner : tensor c d * Axis.y.pair * (tensor c d)ᵀ * Axis.y.pair = (c.det * d.det) • 1 := by
    have turned := transpose_mul_pair_mul cᵀ dᵀ
    rw [tensor_transpose, Matrix.transpose_transpose, Matrix.transpose_transpose, Matrix.det_transpose,
      Matrix.det_transpose] at turned
    rw [tensor_transpose, turned, Matrix.smul_mul, pair_mul_self]
  have between : Axis.y.pair * Axis.y.pair = 1 := pair_mul_self .y
  calc
    _ = (z * z) • (tensor c d * Axis.y.pair * (tensor c d)ᵀ * wᵀ * ((tensor a b)ᵀ * Axis.y.pair * tensor a b) * w *
        tensor c d) := by
      simp only [gram, Matrix.transpose_smul, Matrix.transpose_mul, Matrix.mul_smul, Matrix.smul_mul, smul_smul,
        Matrix.mul_assoc]
    _ = (z * z * (a.det * b.det)) • (tensor c d * Axis.y.pair * (tensor c d)ᵀ * (Axis.y.pair * Axis.y.pair) * wᵀ *
        Axis.y.pair * w * tensor c d) := by
      rw [outer, between, Matrix.mul_one]
      simp only [Matrix.mul_smul, Matrix.smul_mul, smul_smul, Matrix.mul_assoc]
    _ = (z * z * (a.det * b.det)) • (tensor c d * Axis.y.pair * (tensor c d)ᵀ * Axis.y.pair * gram w * tensor c d) := by
      simp only [gram, Matrix.mul_assoc]
    _ = _ := by
      rw [inner, Matrix.smul_mul, Matrix.smul_mul, Matrix.one_mul, smul_smul, localFactor]

theorem tensor_isUnit {c d : OneQubit} (hc : IsUnit c) (hd : IsUnit d) : IsUnit (tensor c d) := by
  rw [Matrix.isUnit_iff_isUnit_det] at hc hd ⊢
  rw [det_tensor]
  exact (hc.pow 2).mul (hd.pow 2)

/-- Where the second operations are regular, the product is changed by a basis and a factor. -/
theorem exists_gram_local (z : ℂ) (a b : OneQubit) {c d : OneQubit} (hc : IsUnit c) (hd : IsUnit d) (w : TwoQubit) :
    ∃ s : TwoQubitˣ,
      gram (z • (tensor a b * w * tensor c d)) =
        localFactor z a b c d • ((s⁻¹ : TwoQubitˣ) * gram w * (s : TwoQubit)) := by
  obtain ⟨s, own⟩ := tensor_isUnit hc hd
  have moved := mul_gram_local z a b c d w
  rw [← own] at moved ⊢
  refine ⟨s, ?_⟩
  rw [← Units.inv_mul_cancel_left s (gram _), moved, Matrix.mul_smul, Matrix.mul_assoc]

theorem trace_gram_local (z : ℂ) (a b : OneQubit) {c d : OneQubit} (hc : IsUnit c) (hd : IsUnit d) (w : TwoQubit) :
    (gram (z • (tensor a b * w * tensor c d))).trace = localFactor z a b c d * (gram w).trace := by
  obtain ⟨s, moved⟩ := exists_gram_local z a b hc hd w
  rw [moved, Matrix.trace_smul, Matrix.trace_units_conj', smul_eq_mul]

theorem coupling_transpose (θ : Axis → ℝ) : (coupling θ)ᵀ = coupling θ := by
  rw [coupling_eq_cross, cross]
  ext i j
  fin_cases i <;> fin_cases j <;> rfl

theorem pair_mul_coupling (k : Axis) (θ : Axis → ℝ) : k.pair * coupling θ = coupling θ * k.pair := by
  rw [pair_eq_inMagic, coupling, inMagic_mul, inMagic_mul, Matrix.diagonal_mul_diagonal, Matrix.diagonal_mul_diagonal]
  congr 2
  funext m
  exact mul_comm _ _

/-- The product of an interaction with its transpose has the doubled angles. -/
theorem gram_coupling (θ : Axis → ℝ) : gram (coupling θ) = coupling (θ + θ) := by
  rw [gram, coupling_transpose, pair_mul_coupling, Matrix.mul_assoc (coupling θ), pair_mul_self, Matrix.mul_one, coupling_mul]

/-- A function of the doubled angles, multiplied over the axes. -/
def doubled (f : ℝ → ℝ) (θ : Axis → ℝ) : ℝ := f (2 * θ .x) * f (2 * θ .y) * f (2 * θ .z)

theorem trace_gram_coupling (θ : Axis → ℝ) :
    (gram (coupling θ)).trace = 4 * (doubled Real.cos θ + doubled Real.sin θ * I) := by
  rw [gram_coupling, trace_coupling, doubled, doubled]
  simp only [Pi.add_apply, ← two_mul]
  push_cast
  rfl

/-! ## Eigenvalues -/

/-- A change of basis between diagonal matrices only reorders their values. -/
theorem exists_perm_of_diagonal_mul {s : TwoQubit} (regular : s.det ≠ 0) {v w : Fin 4 → ℂ}
    (moves : s * diagonal w = diagonal v * s) : ∃ σ : Equiv.Perm (Fin 4), ∀ k, w k = v (σ k) := by
  rw [Matrix.det_apply] at regular
  -- a term of the determinant that is not zero has an entry other than zero in every column
  obtain ⟨σ, -, term⟩ := Finset.exists_ne_zero_of_sum_ne_zero regular
  have entries : ∀ k, s (σ k) k ≠ 0 := by
    intro k zero
    have product : ∏ i, s (σ i) i = 0 := Finset.prod_eq_zero (Finset.mem_univ k) zero
    exact term (by rw [product, smul_zero])
  refine ⟨σ, fun k => ?_⟩
  have entry := congrFun (congrFun moves (σ k)) k
  rw [Matrix.mul_diagonal, Matrix.diagonal_mul, mul_comm] at entry
  exact mul_right_cancel₀ (entries k) entry

theorem exists_inMagic (w : TwoQubit) : ∃ s, inMagic s = w := by
  refine ⟨magicInverse.toMatrix * w * (magic : Mat4 ℝ).toMatrix, ?_⟩
  calc
    _ = (magic.toMatrix * magicInverse.toMatrix) * w * (magic.toMatrix * magicInverse.toMatrix) := by
      simp only [inMagic, Matrix.mul_assoc]
    _ = w := by rw [magic_mul_magicInverse, Matrix.one_mul, Matrix.mul_one]

/-- Among matrices of determinant one, equivalent ones have the same product up to a change of basis and a sign. -/
theorem UpToLocal.exists_gram {w w' : TwoQubit} (related : UpToLocal w w') (one : w.det = 1) (one' : w'.det = 1) :
    ∃ (sign : ℂ) (s : TwoQubit), sign * sign = 1 ∧ s ∈ unitaryGroup (Fin 4) ℂ ∧ s * gram w' = sign • (gram w * s) := by
  obtain ⟨t, a, b, c, d, -, -, hc, hd, rfl⟩ := related
  exact ⟨localFactor (exp (t * I)) a b c d, tensor c d, localFactor_mul_self one one', tensor_mem_unitary hc hd,
    mul_gram_local _ a b c d w⟩

/-- The doubled phases of equivalent interactions are the same, up to their order and one sign. -/
theorem UpToLocal.exp_phases {θ η : Axis → ℝ} (related : UpToLocal (coupling θ) (coupling η)) :
    ∃ (σ : Equiv.Perm (Fin 4)) (sign : ℂ), sign * sign = 1 ∧
      ∀ k, exp ((2 * phases η k : ℝ) * I) = sign * exp ((2 * phases θ (σ k) : ℝ) * I) := by
  obtain ⟨sign, frame, square, unitary, moved⟩ := related.exists_gram (det_coupling θ) (det_coupling η)
  rw [gram_coupling, gram_coupling] at moved
  obtain ⟨s, rfl⟩ := exists_inMagic frame
  have regular : s.det ≠ 0 := by
    rw [← det_inMagic]
    intro zero
    have unit := norm_det_of_unitary unitary
    rw [zero, norm_zero] at unit
    exact zero_ne_one unit
  have doubled (ζ : Axis → ℝ) : (fun k => exp (phases (ζ + ζ) k * I)) = fun k => exp ((2 * phases ζ k : ℝ) * I) := by
    funext k
    congr 3
    fin_cases k <;> simp [phases] <;> ring
  have diagonals : s * diagonal (fun k => exp ((2 * phases η k : ℝ) * I)) =
      diagonal (fun k => sign * exp ((2 * phases θ k : ℝ) * I)) * s := by
    apply inMagic_injective
    rw [coupling, coupling, inMagic_mul, inMagic_mul, ← inMagic_smul, doubled, doubled, ← Matrix.smul_mul,
      ← Matrix.diagonal_smul] at moved
    exact moved
  obtain ⟨σ, values⟩ := exists_perm_of_diagonal_mul regular diagonals
  exact ⟨σ, sign, square, values⟩

/-! ## The chamber -/

/-- Angles in the order of the chamber. -/
structure Ordered (θ : Axis → ℝ) : Prop where
  second : θ .y ≤ θ .x
  third : |θ .z| ≤ θ .y

theorem Form.InChamber.ordered {f : Form ℝ} (chamber : f.InChamber) : Ordered (angles f.a f.b f.c) :=
  ⟨chamber.second, chamber.third⟩

/-- The vectors of the magic basis by falling phases. -/
def descending : Equiv.Perm (Fin 4) where
  toFun := ![2, 0, 1, 3]
  invFun := ![1, 2, 0, 3]
  left_inv := by decide
  right_inv := by decide

section Ordered

variable {θ η : Axis → ℝ}

theorem Ordered.antitone (ordered : Ordered θ) : Antitone (phases θ ∘ descending) := by
  obtain ⟨lower, upper⟩ := abs_le.mp ordered.third
  have second := ordered.second
  rw [Fin.antitone_iff_succ_le]
  intro k
  fin_cases k <;> simp [phases, descending] <;> linarith

/-- The sum of two phases is at most twice the first angle. -/
theorem Ordered.abs_phases_add_le (ordered : Ordered θ) {i j : Fin 4} (apart : i ≠ j) :
    |phases θ i + phases θ j| ≤ 2 * θ .x := by
  obtain ⟨lower, upper⟩ := abs_le.mp ordered.third
  have second := ordered.second
  rw [abs_le]
  fin_cases i <;> fin_cases j <;> simp [phases] at apart ⊢ <;> constructor <;> linarith

theorem phases_injective (same : phases η = phases θ) : η = θ := by
  have first := congrFun same 0
  have second := congrFun same 1
  have third := congrFun same 2
  simp only [phases, Matrix.cons_val_zero, Matrix.cons_val_one, Matrix.cons_val] at first second third
  funext k
  cases k <;> linarith

/-- In the chamber, and inside of its outer face for one of them, equivalent interactions have the same phases up
to their order. -/
theorem UpToLocal.phases_eq (related : UpToLocal (coupling θ) (coupling η)) (inside : Ordered θ) (inner : θ .x < Real.pi / 4)
    (inside' : Ordered η) (inner' : η .x ≤ Real.pi / 4) : ∃ σ : Equiv.Perm (Fin 4), phases η = phases θ ∘ σ := by
  obtain ⟨σ, sign, square, values⟩ := related.exp_phases
  -- in a sum of two phases the sign cancels, and what is left is less than a half turn
  have sums {i j : Fin 4} (apart : i ≠ j) : phases η i + phases η j = phases θ (σ i) + phases θ (σ j) := by
    have turned : exp ((2 * (phases η i + phases η j) : ℝ) * I) =
        exp ((2 * (phases θ (σ i) + phases θ (σ j)) : ℝ) * I) := by
      rw [mul_add, mul_add, Complex.ofReal_add, Complex.ofReal_add, add_mul, add_mul, Complex.exp_add, Complex.exp_add,
        values, values]
      linear_combination exp ((2 * phases θ (σ i) : ℝ) * I) * exp ((2 * phases θ (σ j) : ℝ) * I) * square
    obtain ⟨n, whole⟩ := Complex.exp_eq_exp_iff_exists_int.mp turned
    have step : phases η i + phases η j = phases θ (σ i) + phases θ (σ j) + Real.pi * n := by
      have parts := congrArg Complex.im whole
      simp at parts
      linarith
    obtain ⟨lower, upper⟩ := abs_le.mp (inside.abs_phases_add_le (σ.injective.ne apart))
    obtain ⟨lower', upper'⟩ := abs_le.mp (inside'.abs_phases_add_le apart)
    have pi := Real.pi_pos
    have above : (n : ℝ) < 1 := by nlinarith
    have below : (-1 : ℝ) < n := by nlinarith
    have zero : n = 0 := by
      have : n < 1 := by exact_mod_cast above
      have : -1 < n := by exact_mod_cast below
      omega
    rw [step, zero, Int.cast_zero, mul_zero, add_zero]
  refine ⟨σ, funext fun k => ?_⟩
  obtain ⟨i, j, ki, kj, ij⟩ : ∃ i j : Fin 4, k ≠ i ∧ k ≠ j ∧ i ≠ j := by
    revert k
    decide
  have first := sums ki
  have second := sums kj
  have third := sums ij
  rw [Function.comp_apply]
  linarith

/-- The chamber separates interactions, apart from its outer face. -/
theorem UpToLocal.eq_of_ordered (related : UpToLocal (coupling θ) (coupling η)) (inside : Ordered θ)
    (inner : θ .x < Real.pi / 4) (inside' : Ordered η) (inner' : η .x ≤ Real.pi / 4) : η = θ := by
  obtain ⟨σ, same⟩ := related.phases_eq inside inner inside' inner'
  have falls := inside.antitone
  have falls' := inside'.antitone
  rw [same, Function.comp_assoc, ← Equiv.Perm.coe_mul] at falls'
  have equal := Tuple.unique_antitone falls' falls
  apply phases_injective
  rw [same]
  funext k
  have place := congrFun equal (descending.symm k)
  simpa using place

end Ordered

/-! ## Exact diagonalisations -/

/-- The square of the unitary in the magic basis has an exact diagonalisation, which is the one that is found. -/
def ExactlyDiagonalized (u : Mat4 ℝ) : Prop :=
  ∃ d : Diagonalization ℝ,
    diagonalize ((specialUnitary u u.det).transpose * specialUnitary u u.det) = .ok d ∧
      d.matrix = (specialUnitary u u.det).transpose * specialUnitary u u.det

theorem eq_diagonal {m : Mat4 ℝ} {values : Fin 4 → ℂ} (given : m.toMatrix = diagonal values) :
    m = Square.diagonal 0 fun k => m k k := by
  apply Square.toMatrix_injective
  rw [Square.toMatrix_diagonal, given]
  congr 1
  funext k
  rw [← Square.toMatrix_apply, given, Matrix.diagonal_apply_eq]

/-- A diagonal square in the magic basis is diagonalised exactly. -/
theorem exactlyDiagonalized_of_gram {u : Mat4 ℝ} (unitary : u.Unitary) {values : Fin 4 → ℂ}
    (given : gram u.toMatrix = inMagic (diagonal values)) : ExactlyDiagonalized u := by
  obtain ⟨-, -, back⟩ := specialUnitary_spec unitary
  set up := specialUnitary u u.det with upDef
  set z := exp (-((u.det.arg / 4 : ℝ) * I)) with turn
  have image : inMagic up.toMatrix = z • u.toMatrix := by
    rw [← back, smul_smul, turn, ← Complex.exp_add, neg_add_cancel, Complex.exp_zero, one_smul]
  have turned : (up.transpose * up).toMatrix = diagonal ((z * z) • values) := by
    apply inMagic_injective
    rw [inMagic_square, image, gram_smul, given, Matrix.diagonal_smul, inMagic_smul]
  have square := eq_diagonal turned
  obtain ⟨d, -, found, -, exact, -⟩ := diagonalize_diagonal_perm fun k => (up.transpose * up) k k
  rw [← square] at found exact
  exact ⟨d, found, exact⟩

/-- What is diagonal in the magic basis is diagonalised exactly. -/
theorem exactlyDiagonalized_of_diagonal {u : Mat4 ℝ} (unitary : u.Unitary) {values : Fin 4 → ℂ}
    (given : u.toMatrix = inMagic (diagonal values)) : ExactlyDiagonalized u := by
  apply exactlyDiagonalized_of_gram unitary
  rw [given, gram_inMagic, Matrix.diagonal_transpose, Matrix.diagonal_mul_diagonal]

theorem exactlyDiagonalized_interaction (a b c : ℝ) : ExactlyDiagonalized (interaction a b c) :=
  exactlyDiagonalized_of_diagonal (interaction_unitary a b c) (toMatrix_interaction a b c)

theorem dressed_unitary {p q : Mat2 ℝ} (hp : p.Unitary) (hq : q.Unitary) (a b c t : ℝ) :
    ((Mat4.kron p q * interaction a b c).scale (Cx.cis t)).Unitary := by
  rw [Square.Unitary, Square.toMatrix_scale, Mat4.toMatrix_mul, Mat4.toMatrix_kron, Cx.toComplex_cis]
  exact exp_smul_mem_unitary t (mul_mem (tensor_mem_unitary hp hq) (interaction_unitary a b c))

/-- One-qubit operations after an interaction, and a phase, leave its diagonalisation exact. -/
theorem exactlyDiagonalized_dressed {p q : Mat2 ℝ} (hp : p.Unitary) (hq : q.Unitary) (a b c t : ℝ) :
    ExactlyDiagonalized ((Mat4.kron p q * interaction a b c).scale (Cx.cis t)) := by
  apply exactlyDiagonalized_of_gram (dressed_unitary hp hq a b c t)
  rw [Square.toMatrix_scale, Mat4.toMatrix_mul, Mat4.toMatrix_kron, gram_outer, toMatrix_interaction, gram_coupling,
    coupling, ← inMagic_smul, ← Matrix.diagonal_smul]

/-- The decomposition of a unitary is found and denotes it, phase included, whenever the diagonalisation
is exact. -/
theorem reconstruct_ofUnitary {u : Mat4 ℝ} (unitary : u.Unitary) {d : Diagonalization ℝ}
    (found : diagonalize ((specialUnitary u u.det).transpose * specialUnitary u u.det) = .ok d)
    (orthogonal : d.rotation.toReal * d.rotation.toRealᵀ = 1)
    (exact : d.matrix = (specialUnitary u u.det).transpose * specialUnitary u u.det) :
    ∃ dec : Decomposition ℝ, Decomposition.ofUnitary u Options.default.withoutFidelity = .ok dec ∧
      dec.reconstruct = u := by
  obtain ⟨f, canonical, denotes⟩ := canonicalForm_spec unitary found orthogonal exact
  obtain ⟨dec, kept, same⟩ := ofForm_withoutFidelity u f
  refine ⟨dec, ?_, ?_⟩
  · rw [Decomposition.ofUnitary, canonical]
    exact kept
  · rw [Decomposition.reconstruct, same, denotes]

/-- An interaction with all angles outside of the chamber, then a rotation on each qubit and a phase. -/
def dressedInteraction : Mat4 ℝ :=
  (Mat4.kron (Gate.ryMatrix (1 : ℝ)) (Gate.rzMatrix 2) * interaction (5 / 4 : ℝ) 1 (-3 / 2)).scale (Cx.cis 3)

theorem reconstruct_ofUnitary_dressed :
    ∃ dec : Decomposition ℝ, Decomposition.ofUnitary dressedInteraction Options.default.withoutFidelity = .ok dec ∧
      dec.reconstruct = dressedInteraction := by
  have left := Gate.ryMatrix_unitary 1
  have right := Gate.rzMatrix_unitary 2
  obtain ⟨d, found, exact⟩ := exactlyDiagonalized_dressed left right (5 / 4) 1 (-3 / 2) 3
  obtain ⟨-, orthogonal, -⟩ := diagonalize_eq_ok found
  exact reconstruct_ofUnitary (dressed_unitary left right _ _ _ _) found orthogonal exact

/-! ## Coordinates -/

/-- A unitary with an exact diagonalisation has a canonical form that denotes it. -/
theorem ExactlyDiagonalized.exists_form {u : Mat4 ℝ} (exactly : ExactlyDiagonalized u) (unitary : u.Unitary) :
    ∃ f : Form ℝ, canonicalForm u = .ok f ∧ f.matrix = u ∧ f.Factored := by
  obtain ⟨d, found, exact⟩ := exactly
  obtain ⟨-, orthogonal, -⟩ := diagonalize_eq_ok found
  exact canonicalForm_factored unitary found orthogonal exact

/-- The coordinates are the angles of an equivalent interaction in the chamber. -/
theorem exists_coordinates {u : Mat4 ℝ} (unitary : u.Unitary) (exactly : ExactlyDiagonalized u) :
    ∃ a b c : ℝ, coordinates u = .ok (a, b, c) ∧ a ≤ Real.pi / 4 ∧ Ordered (angles a b c) ∧
      UpToLocal (coupling (angles a b c)) u.toMatrix := by
  obtain ⟨f, canonical, denotes, factored⟩ := exactly.exists_form unitary
  have chamber := canonicalForm_inChamber canonical
  have related := factored.upToLocal
  rw [denotes] at related
  exact ⟨f.a, f.b, f.c, coordinates_of_canonicalForm canonical, chamber.first, chamber.ordered, related⟩

/-- Equivalent unitaries have the same coordinates, inside of the outer face. -/
theorem coordinates_of_upToLocal {v : Mat4 ℝ} (unitary : v.Unitary) (exactly : ExactlyDiagonalized v) {a b c : ℝ}
    (inside : Ordered (angles a b c)) (inner : a < Real.pi / 4) (related : UpToLocal (coupling (angles a b c)) v.toMatrix) :
    coordinates v = .ok (a, b, c) := by
  obtain ⟨a', b', c', read, outer, inside', related'⟩ := exists_coordinates unitary exactly
  have same := (related.trans related'.symm).eq_of_ordered inside inner inside' outer
  have first : a' = a := congrFun same .x
  have second : b' = b := congrFun same .y
  have third : c' = c := congrFun same .z
  rw [read, first, second, third]

theorem locally_unitary {u : Mat4 ℝ} {p q r s : Mat2 ℝ} (unitary : u.Unitary) (hp : p.Unitary) (hq : q.Unitary)
    (hr : r.Unitary) (hs : s.Unitary) (alpha : ℝ) :
    ((Mat4.kron p q * u * Mat4.kron r s).scale (Cx.cis alpha)).Unitary := by
  rw [Square.Unitary, Square.toMatrix_scale, Mat4.toMatrix_mul, Mat4.toMatrix_mul, Mat4.toMatrix_kron, Mat4.toMatrix_kron,
    Cx.toComplex_cis]
  exact exp_smul_mem_unitary alpha (mul_mem (mul_mem (tensor_mem_unitary hp hq) unitary) (tensor_mem_unitary hr hs))

/-- One-qubit operations on both sides and a phase leave the coordinates of a unitary, unless it lies on the outer
face of the chamber; an interaction in the chamber has its angles as coordinates. -/
theorem coordinates_locally_invariant :
    (∀ (u : Mat4 ℝ) (p q r s : Mat2 ℝ) (alpha : ℝ), u.Unitary → p.Unitary → q.Unitary → r.Unitary → s.Unitary →
      ExactlyDiagonalized u → ExactlyDiagonalized ((Mat4.kron p q * u * Mat4.kron r s).scale (Cx.cis alpha)) →
        ∃ a b c : ℝ, coordinates u = .ok (a, b, c) ∧
          (a < Real.pi / 4 →
            coordinates ((Mat4.kron p q * u * Mat4.kron r s).scale (Cx.cis alpha)) = .ok (a, b, c))) ∧
      ∀ a b c : ℝ, a < Real.pi / 4 → b ≤ a → |c| ≤ b → coordinates (interaction a b c) = .ok (a, b, c) := by
  constructor
  · intro u p q r s alpha unitary hp hq hr hs exactly exactly'
    obtain ⟨a, b, c, read, -, inside, related⟩ := exists_coordinates unitary exactly
    refine ⟨a, b, c, read, fun inner => ?_⟩
    apply coordinates_of_upToLocal (locally_unitary unitary hp hq hr hs alpha) exactly' inside inner
    refine related.trans ⟨alpha, p.toMatrix, q.toMatrix, r.toMatrix, s.toMatrix, hp, hq, hr, hs, ?_⟩
    simp
  · intro a b c inner second third
    refine coordinates_of_upToLocal (interaction_unitary a b c) (exactlyDiagonalized_interaction a b c) ⟨second, third⟩
      inner ?_
    rw [toMatrix_interaction]
    exact UpToLocal.refl _

/-- Half turns about different axes before and after an interaction with three different angles. -/
theorem coordinates_locally_invariant_halfTurns :
    coordinates (interaction (1 / 2 : ℝ) (1 / 4) (-1 / 8)) = .ok (1 / 2, 1 / 4, -1 / 8) ∧
      coordinates ((Mat4.kron ipz ipz * interaction (1 / 2 : ℝ) (1 / 4) (-1 / 8) * Mat4.kron ipx ipx).scale (Cx.cis 1)) =
        .ok (1 / 2, 1 / 4, -1 / 8) := by
  have inner : (1 / 2 : ℝ) < Real.pi / 4 := by linarith [Real.pi_gt_three]
  obtain ⟨invariant, inside⟩ := coordinates_locally_invariant
  have own := inside (1 / 2) (1 / 4) (-1 / 8) inner (by norm_num) (by norm_num [abs_le])
  have unitary := interaction_unitary (1 / 2) (1 / 4) (-1 / 8)
  have exactly : ExactlyDiagonalized
      ((Mat4.kron ipz ipz * interaction (1 / 2 : ℝ) (1 / 4) (-1 / 8) * Mat4.kron ipx ipx).scale (Cx.cis 1)) := by
    apply exactlyDiagonalized_of_diagonal (locally_unitary unitary ipz_unitary ipz_unitary ipx_unitary ipx_unitary 1)
    rw [Square.toMatrix_scale, Mat4.toMatrix_mul, Mat4.toMatrix_mul, Mat4.toMatrix_kron, Mat4.toMatrix_kron, toMatrix_ipz,
      toMatrix_ipx, ← Axis.pair, ← Axis.pair, toMatrix_interaction, coupling, pair_eq_inMagic, pair_eq_inMagic, inMagic_mul,
      inMagic_mul, ← inMagic_smul, Matrix.diagonal_mul_diagonal, Matrix.diagonal_mul_diagonal, ← Matrix.diagonal_smul]
  obtain ⟨a, b, c, read, kept⟩ := invariant _ ipz ipz ipx ipx 1 unitary ipz_unitary ipz_unitary ipx_unitary ipx_unitary
    (exactlyDiagonalized_interaction _ _ _) exactly
  obtain ⟨rfl, rfl, rfl⟩ : 1 / 2 = a ∧ 1 / 4 = b ∧ -1 / 8 = c := by
    simpa only [Except.ok.injEq, Prod.mk.injEq] using own.symm.trans read
  exact ⟨own, kept inner⟩

end Entangle.Weyl

end
