import Mathlib
import Entangle.Weyl.Magic
import Entangle.Proofs.MatrixView

/-!
# The canonical interaction

The interaction `exp(i(a·XX + b·YY + c·ZZ))` is diagonal in the magic basis, and its four phases are
linear in the three angles. Its group law, its periods and its trace are read off that form. A half
turn about an axis moves the angle of that axis by a right angle when it is applied to both qubits,
and reverses the angles of the other two axes when it passes on one.
-/

noncomputable section

namespace Entangle.Weyl

open Matrix Complex

/-! ## The magic basis -/

theorem toMatrix_magic : (magic : Mat4 ℝ).toMatrix =
    !![1, I, 0, 0; 0, 0, I, 1; 0, 0, I, -1; 1, -I, 0, 0] := by
  simp [magic, Cx.toComplex_mk]

theorem toMatrix_magicInverse : (magicInverse : Mat4 ℝ).toMatrix =
    !![1 / 2, 0, 0, 1 / 2; -I / 2, 0, 0, I / 2; 0, -I / 2, -I / 2, 0; 0, 1 / 2, -1 / 2, 0] := by
  simp [magicInverse, Cx.toComplex_mk]
  ring_nf
  simp

theorem magic_mul_magicInverse : (magic : Mat4 ℝ).toMatrix * magicInverse.toMatrix = 1 := by
  rw [toMatrix_magic, toMatrix_magicInverse, ← Matrix.ext_iff]
  simp [Matrix.mul_apply, Fin.sum_univ_four, Fin.forall_fin_succ]
  ring_nf
  norm_num

theorem magicInverse_mul_magic : (magicInverse : Mat4 ℝ).toMatrix * magic.toMatrix = 1 :=
  mul_eq_one_comm.mp magic_mul_magicInverse

/-- The matrix that has a given form in the magic basis. -/
def inMagic (m : TwoQubit) : TwoQubit := (magic : Mat4 ℝ).toMatrix * m * magicInverse.toMatrix

@[simp]
theorem toMatrix_intoMagic (u : Mat4 ℝ) : (intoMagic u).toMatrix = inMagic u.toMatrix := by
  simp [intoMagic, inMagic]

theorem inMagic_mul (m n : TwoQubit) : inMagic m * inMagic n = inMagic (m * n) := by
  unfold inMagic
  calc
    _ = magic.toMatrix * m * (magicInverse.toMatrix * magic.toMatrix) * n * magicInverse.toMatrix := by
      simp only [Matrix.mul_assoc]
    _ = _ := by rw [magicInverse_mul_magic, Matrix.mul_one]; simp only [Matrix.mul_assoc]

@[simp]
theorem inMagic_one : inMagic 1 = 1 := by
  rw [inMagic, Matrix.mul_one, magic_mul_magicInverse]

theorem inMagic_smul (z : ℂ) (m : TwoQubit) : inMagic (z • m) = z • inMagic m := by
  simp [inMagic]

theorem inMagic_sub (m n : TwoQubit) : inMagic (m - n) = inMagic m - inMagic n := by
  simp [inMagic, Matrix.mul_sub, Matrix.sub_mul]

theorem inMagic_fromMagic (u : Mat4 ℝ) : inMagic (fromMagic u).toMatrix = u.toMatrix := by
  rw [fromMagic, Mat4.toMatrix_mul, Mat4.toMatrix_mul, inMagic]
  calc
    _ = (magic.toMatrix * magicInverse.toMatrix) * u.toMatrix *
        (magic.toMatrix * magicInverse.toMatrix) := by simp only [Matrix.mul_assoc]
    _ = _ := by rw [magic_mul_magicInverse, Matrix.one_mul, Matrix.mul_one]

theorem inMagic_injective : Function.Injective inMagic := by
  intro m n same
  have back (w : TwoQubit) : magicInverse.toMatrix * inMagic w * (magic : Mat4 ℝ).toMatrix = w := by
    calc
      _ = magicInverse.toMatrix * magic.toMatrix * w * (magicInverse.toMatrix * magic.toMatrix) := by
        simp only [inMagic, Matrix.mul_assoc]
      _ = w := by rw [magicInverse_mul_magic, Matrix.one_mul, Matrix.mul_one]
  rw [← back m, same, back n]

theorem det_inMagic (m : TwoQubit) : (inMagic m).det = m.det := by
  have inverse := congrArg Matrix.det magic_mul_magicInverse
  rw [Matrix.det_mul, Matrix.det_one] at inverse
  rw [inMagic, Matrix.det_mul, Matrix.det_mul]
  linear_combination m.det * inverse

/-! ## The interaction in the magic basis -/

inductive Axis where
  | x | y | z
deriving DecidableEq

/-- The angles about the three axes. -/
def angles (a b c : ℝ) : Axis → ℝ
  | .x => a
  | .y => b
  | .z => c

/-- The phases of the interaction on the four vectors of the magic basis. -/
def phases (θ : Axis → ℝ) : Fin 4 → ℝ :=
  ![θ .x - θ .y + θ .z, -θ .x + θ .y + θ .z, θ .x + θ .y - θ .z, -θ .x - θ .y - θ .z]

/-- The interaction with given angles. -/
def coupling (θ : Axis → ℝ) : TwoQubit := inMagic (diagonal fun k => exp (phases θ k * I))

/-- A matrix with one value on each of its two diagonals in the outer and in the inner block. -/
def cross (d0 o0 d1 o1 : ℂ) : TwoQubit :=
  !![d0, 0, 0, o0; 0, d1, o1, 0; 0, o1, d1, 0; o0, 0, 0, d0]

theorem inMagic_diagonal (p0 p1 p2 p3 : ℂ) :
    inMagic (diagonal ![p0, p1, p2, p3]) =
      cross ((p0 + p1) / 2) ((p0 - p1) / 2) ((p2 + p3) / 2) ((p2 - p3) / 2) := by
  rw [inMagic, toMatrix_magic, toMatrix_magicInverse, cross, Matrix.mul_assoc, ← Matrix.ext_iff]
  simp only [Matrix.mul_apply, Fin.sum_univ_four, Fin.forall_fin_succ]
  simp
  ring_nf
  simp
  ring_nf
  simp

/-- The entries of the interaction. -/
theorem coupling_eq_cross (θ : Axis → ℝ) :
    coupling θ = cross (exp (θ .z * I) * cos (θ .x - θ .y)) (I * exp (θ .z * I) * sin (θ .x - θ .y))
      (exp (-θ .z * I) * cos (θ .x + θ .y)) (I * exp (-θ .z * I) * sin (θ .x + θ .y)) := by
  have entries : (fun k => exp (phases θ k * I)) =
      ![exp ((θ .x - θ .y + θ .z) * I), exp ((-θ .x + θ .y + θ .z) * I),
        exp ((θ .x + θ .y - θ .z) * I), exp ((-θ .x - θ .y - θ .z) * I)] := by
    funext k
    fin_cases k <;> simp [phases]
  have split (p q : ℂ) : exp ((p + q) * I) = exp (q * I) * exp (p * I) := by
    rw [← Complex.exp_add]
    ring_nf
  rw [coupling, entries, inMagic_diagonal]
  have outer₁ := split (θ .x - θ .y) (θ .z)
  have outer₂ := split (-(θ .x - θ .y)) (θ .z)
  have inner₁ := split (θ .x + θ .y) (-θ .z)
  have inner₂ := split (-(θ .x + θ .y)) (-θ .z)
  have shape₁ : (-θ .x + θ .y + θ .z : ℂ) = -(θ .x - θ .y) + θ .z := by ring
  have shape₂ : (θ .x + θ .y - θ .z : ℂ) = θ .x + θ .y + -θ .z := by ring
  have shape₃ : (-θ .x - θ .y - θ .z : ℂ) = -(θ .x + θ .y) + -θ .z := by ring
  rw [shape₁, shape₂, shape₃, outer₁, outer₂, inner₁, inner₂, Complex.cos, Complex.sin, Complex.cos,
    Complex.sin]
  congr 1 <;> ring_nf <;> simp <;> ring

@[simp]
theorem toMatrix_interaction (a b c : ℝ) :
    (interaction a b c).toMatrix = coupling (angles a b c) := by
  rw [coupling_eq_cross, interaction, Mat4.toMatrix_of, cross]
  simp [angles]

/-! ## Group law, periods and trace -/

theorem coupling_mul (θ η : Axis → ℝ) : coupling θ * coupling η = coupling (θ + η) := by
  rw [coupling, coupling, inMagic_mul, Matrix.diagonal_mul_diagonal, coupling]
  congr 2
  funext k
  rw [← Complex.exp_add]
  congr 1
  fin_cases k <;> simp [phases] <;> ring

@[simp]
theorem coupling_zero : coupling 0 = 1 := by
  have entries : (fun k => exp (phases 0 k * I)) = fun _ => 1 := by
    funext k
    fin_cases k <;> simp [phases]
  rw [coupling, entries, Matrix.diagonal_one, inMagic_one]

theorem coupling_neg_mul (θ : Axis → ℝ) : coupling (-θ) * coupling θ = 1 := by
  rw [coupling_mul, neg_add_cancel, coupling_zero]

/-- Whole turns of any angle leave the interaction. -/
theorem coupling_add_turns (θ : Axis → ℝ) (turns : Axis → ℤ) :
    coupling (fun k => θ k + 2 * Real.pi * turns k) = coupling θ := by
  rw [coupling, coupling]
  congr 2
  funext k
  rw [Complex.exp_eq_exp_iff_exists_int]
  fin_cases k
  · refine ⟨turns .x - turns .y + turns .z, ?_⟩
    simp [phases]
    ring
  · refine ⟨-turns .x + turns .y + turns .z, ?_⟩
    simp [phases]
    ring
  · refine ⟨turns .x + turns .y - turns .z, ?_⟩
    simp [phases]
    ring
  · refine ⟨-turns .x - turns .y - turns .z, ?_⟩
    simp [phases]
    ring

theorem magic_conjTranspose : (magic : Mat4 ℝ).toMatrixᴴ = (2 : ℂ) • magicInverse.toMatrix := by
  rw [toMatrix_magic, toMatrix_magicInverse]
  ext i j
  fin_cases i <;> fin_cases j <;> simp [Matrix.conjTranspose_apply] <;> ring

theorem inMagic_conjTranspose (m : TwoQubit) : (inMagic m)ᴴ = inMagic mᴴ := by
  have inverse : (magicInverse : Mat4 ℝ).toMatrixᴴ = (1 / 2 : ℂ) • magic.toMatrix := by
    have double := congrArg Matrix.conjTranspose magic_conjTranspose
    rw [Matrix.conjTranspose_conjTranspose, Matrix.conjTranspose_smul] at double
    rw [double, smul_smul]
    norm_num
  rw [inMagic, Matrix.conjTranspose_mul, Matrix.conjTranspose_mul, magic_conjTranspose, inverse, inMagic]
  simp [← Matrix.mul_assoc, smul_smul]

theorem inMagic_mem_unitary_iff {m : TwoQubit} :
    inMagic m ∈ unitaryGroup (Fin 4) ℂ ↔ m ∈ unitaryGroup (Fin 4) ℂ := by
  rw [mem_unitaryGroup_iff, mem_unitaryGroup_iff, star_eq_conjTranspose, inMagic_conjTranspose, inMagic_mul,
    star_eq_conjTranspose]
  exact ⟨fun unit => inMagic_injective (unit.trans inMagic_one.symm), fun unit => by rw [unit, inMagic_one]⟩

theorem coupling_conjTranspose (θ : Axis → ℝ) : (coupling θ)ᴴ = coupling (-θ) := by
  rw [coupling, inMagic_conjTranspose, Matrix.diagonal_conjTranspose, coupling]
  congr 2
  funext k
  rw [Pi.star_apply, Complex.star_def, ← Complex.exp_conj]
  congr 1
  fin_cases k <;> simp [phases] <;> ring

theorem coupling_mem_unitary (θ : Axis → ℝ) : coupling θ ∈ unitaryGroup (Fin 4) ℂ := by
  rw [mem_unitaryGroup_iff', star_eq_conjTranspose, coupling_conjTranspose, coupling_neg_mul]

/-- The trace of the interaction, by the cosines and the sines of its angles. -/
theorem trace_coupling (θ : Axis → ℝ) :
    (coupling θ).trace = 4 * (cos (θ .x) * cos (θ .y) * cos (θ .z) +
      sin (θ .x) * sin (θ .y) * sin (θ .z) * I) := by
  rw [coupling_eq_cross, cross, Matrix.trace, Fin.sum_univ_four]
  simp only [Complex.exp_mul_I, Complex.cos_add, Complex.cos_sub, Complex.cos_neg, Complex.sin_neg]
  simp
  ring

/-- The coded trace is the trace of the interaction. -/
theorem toComplex_canonicalTrace (a b c : ℝ) :
    (canonicalTrace a b c).toComplex = (coupling (angles a b c)).trace := by
  rw [trace_coupling, canonicalTrace, Cx.toComplex_mul, Cx.toComplex_ofNat, Cx.toComplex_mk]
  simp [angles]

/-! ## Half turns -/

/-- The half turn about an axis, `i` times its Pauli matrix. -/
def Axis.halfTurn : Axis → OneQubit
  | .x => !![0, I; I, 0]
  | .y => !![0, 1; -1, 0]
  | .z => !![I, 0; 0, -I]

@[simp]
theorem toMatrix_ipx : (ipx : Mat2 ℝ).toMatrix = Axis.x.halfTurn := by
  simp [ipx, Axis.halfTurn, Cx.toComplex_mk]

@[simp]
theorem toMatrix_ipy : (ipy : Mat2 ℝ).toMatrix = Axis.y.halfTurn := by
  simp [ipy, Axis.halfTurn, Cx.toComplex_mk]

@[simp]
theorem toMatrix_ipz : (ipz : Mat2 ℝ).toMatrix = Axis.z.halfTurn := by
  simp [ipz, Axis.halfTurn, Cx.toComplex_mk]

theorem halfTurn_mul_self (k : Axis) : k.halfTurn * k.halfTurn = -1 := by
  cases k <;> simp [Axis.halfTurn, Matrix.one_fin_two]

theorem Axis.halfTurn_conjTranspose (k : Axis) : k.halfTurnᴴ = -k.halfTurn := by
  cases k <;> simp [halfTurn, ← Matrix.ext_iff, Fin.forall_fin_two]

theorem Axis.halfTurn_mem_unitary (k : Axis) : k.halfTurn ∈ unitaryGroup (Fin 2) ℂ := by
  rw [mem_unitaryGroup_iff, star_eq_conjTranspose, halfTurn_conjTranspose, Matrix.mul_neg, halfTurn_mul_self, neg_neg]

theorem ipx_unitary : (ipx : Mat2 ℝ).Unitary := by
  rw [Square.Unitary, toMatrix_ipx]
  exact Axis.x.halfTurn_mem_unitary

theorem ipy_unitary : (ipy : Mat2 ℝ).Unitary := by
  rw [Square.Unitary, toMatrix_ipy]
  exact Axis.y.halfTurn_mem_unitary

theorem ipz_unitary : (ipz : Mat2 ℝ).Unitary := by
  rw [Square.Unitary, toMatrix_ipz]
  exact Axis.z.halfTurn_mem_unitary

theorem halfTurn_mul_of_ne {j k : Axis} (other : j ≠ k) :
    j.halfTurn * k.halfTurn = -(k.halfTurn * j.halfTurn) := by
  cases j <;> cases k <;> simp_all [Axis.halfTurn]

/-- Half turns about one axis on both qubits. -/
def Axis.pair (k : Axis) : TwoQubit := tensor k.halfTurn k.halfTurn

/-- The values of a pair of half turns on the four vectors of the magic basis. -/
def Axis.signs : Axis → Fin 4 → ℝ
  | .x => ![-1, 1, -1, 1]
  | .y => ![1, -1, -1, 1]
  | .z => ![-1, -1, 1, 1]

theorem pair_eq_inMagic (k : Axis) : k.pair = inMagic (diagonal fun m => (k.signs m : ℂ)) := by
  have entries : (fun m => (k.signs m : ℂ)) =
      ![(k.signs 0 : ℂ), (k.signs 1 : ℂ), (k.signs 2 : ℂ), (k.signs 3 : ℂ)] := by
    funext m
    fin_cases m <;> rfl
  rw [entries, inMagic_diagonal, Axis.pair, cross, ← Matrix.ext_iff]
  cases k <;> simp [Axis.halfTurn, Axis.signs, Fin.forall_fin_succ] <;> norm_num

/-- The interaction about one axis. -/
def Axis.couple (k : Axis) (t : ℝ) : TwoQubit := cos (t : ℂ) • 1 - (I * sin (t : ℂ)) • k.pair

theorem couple_eq_inMagic (k : Axis) (t : ℝ) :
    k.couple t = inMagic (diagonal fun m => exp (-(k.signs m) * t * I)) := by
  have value (m : Fin 4) :
      exp (-(k.signs m) * t * I) = cos (t : ℂ) - I * sin (t : ℂ) * k.signs m := by
    rw [Complex.exp_mul_I]
    cases k <;> fin_cases m <;> simp [Axis.signs] <;> ring
  have entries : (diagonal fun m => exp (-(k.signs m) * t * I)) =
      cos (t : ℂ) • 1 - (I * sin (t : ℂ)) • diagonal fun m => (k.signs m : ℂ) := by
    rw [← Matrix.diagonal_one, ← Matrix.diagonal_smul, ← Matrix.diagonal_smul, Matrix.diagonal_sub]
    congr 1
    funext m
    rw [value]
    simp
  rw [entries, inMagic_sub, inMagic_smul, inMagic_smul, inMagic_one, ← pair_eq_inMagic, Axis.couple]

/-- The interaction is the product of those about the three axes. -/
theorem coupling_eq_couple (θ : Axis → ℝ) :
    coupling θ = Axis.x.couple (θ .x) * Axis.y.couple (θ .y) * Axis.z.couple (θ .z) := by
  rw [couple_eq_inMagic, couple_eq_inMagic, couple_eq_inMagic, inMagic_mul, inMagic_mul,
    Matrix.diagonal_mul_diagonal, Matrix.diagonal_mul_diagonal, coupling]
  congr 2
  funext m
  rw [← Complex.exp_add, ← Complex.exp_add]
  congr 1
  fin_cases m <;> simp [phases, Axis.signs] <;> ring

/-- A matrix that commutes with a pair of half turns passes the interaction about its axis, and one
that anticommutes with it reverses the angle. -/
theorem mul_couple_of_pair {w : TwoQubit} {k : Axis} {sign : ℝ} (unit : sign = 1 ∨ sign = -1)
    (moves : w * k.pair = (sign : ℂ) • (k.pair * w)) (t : ℝ) :
    w * k.couple t = k.couple (sign * t) * w := by
  rw [Axis.couple, Axis.couple, Matrix.mul_sub, Matrix.sub_mul, Matrix.mul_smul, Matrix.mul_smul, moves,
    Matrix.mul_one, Matrix.smul_mul, Matrix.smul_mul, Matrix.one_mul, smul_smul]
  rcases unit with rfl | rfl <;> simp

theorem mul_coupling_of_pairs {w : TwoQubit} {sign : Axis → ℝ} (unit : ∀ k, sign k = 1 ∨ sign k = -1)
    (moves : ∀ k, w * k.pair = (sign k : ℂ) • (k.pair * w)) (θ : Axis → ℝ) :
    w * coupling θ = coupling (sign * θ) * w := by
  have pass (k : Axis) := mul_couple_of_pair (unit k) (moves k) (θ k)
  rw [coupling_eq_couple, coupling_eq_couple]
  calc
    _ = w * Axis.x.couple (θ .x) * Axis.y.couple (θ .y) * Axis.z.couple (θ .z) := by
      simp only [Matrix.mul_assoc]
    _ = Axis.x.couple (sign .x * θ .x) * (w * Axis.y.couple (θ .y)) * Axis.z.couple (θ .z) := by
      rw [pass .x]
      simp only [Matrix.mul_assoc]
    _ = Axis.x.couple (sign .x * θ .x) * Axis.y.couple (sign .y * θ .y) *
        (w * Axis.z.couple (θ .z)) := by
      rw [pass .y]
      simp only [Matrix.mul_assoc]
    _ = _ := by
      rw [pass .z]
      simp only [Matrix.mul_assoc, Pi.mul_apply]

/-- A half turn keeps the sense of its own axis and reverses the other two. -/
def Axis.sense (k j : Axis) : ℝ := if j = k then 1 else -1

theorem Axis.sense_unit (k j : Axis) : k.sense j = 1 ∨ k.sense j = -1 := by
  unfold Axis.sense
  split <;> simp

theorem sense_mul_sense_mul (k : Axis) (θ : Axis → ℝ) : k.sense * (k.sense * θ) = θ := by
  funext j
  rcases k.sense_unit j with unit | unit <;> simp [unit]

theorem halfTurn_mul_halfTurn (k j : Axis) :
    k.halfTurn * j.halfTurn = (k.sense j : ℂ) • (j.halfTurn * k.halfTurn) := by
  rcases eq_or_ne j k with rfl | other
  · simp [Axis.sense]
  · simp [Axis.sense, other, halfTurn_mul_of_ne other.symm]

/-- A half turn on the low qubit passes the interaction and reverses its angles about the other two axes. -/
theorem halfTurn_right_mul_coupling (k : Axis) (θ : Axis → ℝ) :
    tensor 1 k.halfTurn * coupling θ = coupling (k.sense * θ) * tensor 1 k.halfTurn := by
  refine mul_coupling_of_pairs k.sense_unit (fun j => ?_) θ
  rw [Axis.pair, tensor_mul_tensor, tensor_mul_tensor, halfTurn_mul_halfTurn, tensor_smul_right,
    Matrix.one_mul, Matrix.mul_one]

theorem pair_mul_self (k : Axis) : k.pair * k.pair = 1 := by
  rw [Axis.pair, tensor_mul_tensor, halfTurn_mul_self, tensor_neg_left, tensor_neg_right, tensor_one_one, neg_neg]

/-- Half turns on both qubits add a right angle about their axis. -/
theorem couple_right_angle (k : Axis) : k.couple (Real.pi / 2) = (-I) • k.pair := by
  rw [Axis.couple]
  push_cast
  rw [Complex.cos_pi_div_two, Complex.sin_pi_div_two]
  simp

theorem coupling_single (k : Axis) (t : ℝ) : coupling (Pi.single k t) = k.couple t := by
  have still (j : Axis) : j.couple 0 = 1 := by simp [Axis.couple]
  rw [coupling_eq_couple]
  cases k <;> simp [still]

theorem coupling_add_right_angle (k : Axis) (θ : Axis → ℝ) :
    coupling (θ + Pi.single k (Real.pi / 2)) = (-I) • (k.pair * coupling θ) := by
  rw [add_comm, ← coupling_mul, coupling_single, couple_right_angle, Matrix.smul_mul]

end Entangle.Weyl

end
