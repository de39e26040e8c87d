import Mathlib
import Entangle.Proofs.CommutingParts
import Entangle.Proofs.SymmetricEigenproblem
import Entangle.Proofs.WordStream

/-!
# Mixtures of parts

Every mixture of the real and imaginary part of a matrix is diagonal in the frame of the matrix. A frame that is found
for a mixture leaves little of the matrix off the diagonal where the mixture tells the values of the matrix apart. Two
mixtures of different directions are not both blind for one pair of values, and there are only six pairs: seven
directions far enough apart are among the first ten draws, so that one of the mixtures that are tried reproduces a matrix
whose parts commute.
-/

noncomputable section

namespace Entangle

open Matrix Complex
open scoped Matrix.Norms.Frobenius

/-! ## Draws -/

namespace Random

/-- More draws begin with fewer. -/
theorem repeated_prefix {σ β : Type} (draw : Draw σ β) (count more : ℕ) (s : σ) :
    resultFrom s (repeated draw count) <+: resultFrom s (repeated draw (count + more)) := by
  rw [resultFrom_repeated, resultFrom_repeated, List.range_add, List.map_append]
  exact List.prefix_append _ _

end Random

namespace Exact

open Binary64

/-- The units of `2^-56` in the double of given bits. -/
def units (bits : UInt64) : ℤ :=
  (if bits >>> 63 == 1 then -1 else 1) * (Parts.ofBits bits).significand * 2 ^ ((Parts.ofBits bits).exponent + 56).toNat

theorem ofDouble_eq_units {x : Float} (fine : -56 ≤ (Parts.ofBits x.toBits).exponent) :
    ofDouble x = units x.toBits * 2 ^ (-56 : ℤ) := by
  have whole : ((Parts.ofBits x.toBits).exponent + 56).toNat = (Parts.ofBits x.toBits).exponent + 56 :=
    Int.toNat_of_nonneg (by omega)
  have power : (2 : ℝ) ^ (Parts.ofBits x.toBits).exponent =
      2 ^ ((Parts.ofBits x.toBits).exponent + 56).toNat * 2 ^ (-56 : ℤ) := by
    rw [← zpow_natCast, whole, ← zpow_add₀ two_ne_zero]
    congr 1
    ring
  have value : ofDouble x = (if x.toBits >>> 63 == 1 then -1 else 1) * (Parts.ofBits x.toBits).significand *
      (2 : ℝ) ^ (Parts.ofBits x.toBits).exponent := rfl
  rw [value, power, units]
  push_cast
  ring

end Exact

namespace Weyl

/-! ## Blending -/

namespace Mixture

variable {v w : Mixture ℝ}

/-- The real number that a mixture makes of a complex one. -/
def blend (w : Mixture ℝ) : ℂ →ₗ[ℝ] ℝ := w.re • reLm + w.im • imLm

theorem blend_apply (w : Mixture ℝ) (z : ℂ) : w.blend z = w.re * z.re + w.im * z.im := rfl

/-- The square of the length of a mixture. -/
def weight (w : Mixture ℝ) : ℝ := w.re ^ 2 + w.im ^ 2

theorem norm_sq_eq (z : ℂ) : ‖z‖ ^ 2 = z.re ^ 2 + z.im ^ 2 := by
  rw [← Complex.normSq_eq_norm_sq, Complex.normSq_apply, sq, sq]

/-- The part of a number that a mixture is blind for. -/
def blindBlend (w : Mixture ℝ) (z : ℂ) : ℝ := w.im * z.re - w.re * z.im

theorem blend_sq_add_sq (w : Mixture ℝ) (z : ℂ) : w.blend z ^ 2 + w.blindBlend z ^ 2 = w.weight * ‖z‖ ^ 2 := by
  rw [blend_apply, blindBlend, weight, norm_sq_eq]
  ring

theorem blend_sq_le (w : Mixture ℝ) (z : ℂ) : w.blend z ^ 2 ≤ w.weight * ‖z‖ ^ 2 := by
  rw [← blend_sq_add_sq]
  exact le_add_of_nonneg_right (sq_nonneg _)

/-- A mixture tells a number from zero: it keeps about a tenth of its length. -/
def Separates (w : Mixture ℝ) (z : ℂ) : Prop := w.weight * ‖z‖ ^ 2 ≤ 104 * w.blend z ^ 2

/-- Two mixtures point in different directions. -/
def Apart (v w : Mixture ℝ) : Prop := v.weight * w.weight < 26 * (v.re * w.im - v.im * w.re) ^ 2

theorem Apart.positive (apart : v.Apart w) : 0 < v.weight := by
  refine lt_of_le_of_ne (by rw [weight]; positivity) fun zero => ?_
  rw [Apart, ← zero, zero_mul] at apart
  rw [weight] at zero
  have re : v.re = 0 := by nlinarith [sq_nonneg v.re, sq_nonneg v.im]
  have im : v.im = 0 := by nlinarith [sq_nonneg v.re, sq_nonneg v.im]
  rw [re, im] at apart
  norm_num at apart

/-- Of two mixtures in different directions one tells a number from zero. -/
theorem Apart.separates (apart : v.Apart w) (z : ℂ) : v.Separates z ∨ w.Separates z := by
  by_contra! blind
  simp only [Separates, not_le] at blind
  obtain ⟨first, second⟩ := blind
  have firstRest : v.blindBlend z ^ 2 ≤ v.weight * ‖z‖ ^ 2 := by linarith [blend_sq_add_sq v z, sq_nonneg (v.blend z)]
  have secondRest : w.blindBlend z ^ 2 ≤ w.weight * ‖z‖ ^ 2 := by linarith [blend_sq_add_sq w z, sq_nonneg (w.blend z)]
  have turned : (v.re * w.im - v.im * w.re) * ‖z‖ ^ 2 = v.blend z * w.blindBlend z - v.blindBlend z * w.blend z := by
    rw [blend_apply, blend_apply, blindBlend, blindBlend, norm_sq_eq]
    ring
  have nonzero : ‖z‖ ^ 2 ≠ 0 := by
    intro zero
    rw [zero, mul_zero] at first
    linarith [sq_nonneg (v.blend z)]
  have scaled : v.weight * w.weight * (‖z‖ ^ 2) ^ 2 < 26 * (v.re * w.im - v.im * w.re) ^ 2 * (‖z‖ ^ 2) ^ 2 :=
    mul_lt_mul_of_pos_right apart (by positivity)
  have outer : 104 * v.blend z ^ 2 * w.blindBlend z ^ 2 ≤ v.weight * ‖z‖ ^ 2 * (w.weight * ‖z‖ ^ 2) :=
    mul_le_mul first.le secondRest (sq_nonneg _) ((sq_nonneg _).trans firstRest)
  have inner : v.blindBlend z ^ 2 * (104 * w.blend z ^ 2) ≤ v.weight * ‖z‖ ^ 2 * (w.weight * ‖z‖ ^ 2) :=
    mul_le_mul firstRest second.le (by positivity) ((sq_nonneg _).trans firstRest)
  have square := congrArg (· ^ 2) turned
  have spread := sq_nonneg (v.blend z * w.blindBlend z + v.blindBlend z * w.blend z)
  simp only [mul_pow] at square
  linarith

end Mixture

/-- Among seven mixtures in different directions one tells all values of a matrix apart. -/
theorem exists_separates {w : Fin 7 → Mixture ℝ} (apart : Pairwise fun i j => (w i).Apart (w j)) (values : Fin 4 → ℂ) :
    ∃ i, ∀ k l, (w i).Separates (values k - values l) := by
  by_contra! blind
  have upward (i : Fin 7) : ∃ pair : {pair : Fin 4 × Fin 4 // pair.1 < pair.2},
      ¬ (w i).Separates (values pair.1.1 - values pair.1.2) := by
    obtain ⟨k, l, missed⟩ := blind i
    rcases lt_trichotomy k l with below | rfl | above
    · exact ⟨⟨(k, l), below⟩, missed⟩
    · exact absurd (by simp [Mixture.Separates]) missed
    · refine ⟨⟨(l, k), above⟩, fun separated => missed ?_⟩
      rwa [Mixture.Separates, ← neg_sub, norm_neg, map_neg, neg_sq]
  choose pair missed using upward
  have few : Fintype.card {pair : Fin 4 × Fin 4 // pair.1 < pair.2} < Fintype.card (Fin 7) := by decide
  obtain ⟨i, j, distinct, same⟩ := Fintype.exists_ne_map_eq_of_card_lt pair few
  rcases (apart distinct).separates (values (pair i).1.1 - values (pair i).1.2) with first | second
  · exact missed i first
  · rw [same] at second
    exact missed j second

/-! ## A mixture that reproduces the matrix -/

section Reproduced

variable {m : Mat4 ℝ} {p : Matrix (Fin 4) (Fin 4) ℝ} {values : Fin 4 → ℂ} {w : Mixture ℝ}

theorem toReal_combine (m : Mat4 ℝ) (w : Mixture ℝ) :
    ((Mat4.real m).combine w.re (Mat4.imag m) w.im).toReal = m.toMatrix.map w.blend := by
  ext i j
  simp [Real4.combine, Mat4.real, Mat4.imag, Mixture.blend_apply]

/-- A frame leaves little of a matrix off the diagonal where it leaves little of a mixture that tells the values apart. -/
theorem Diagonalizes.norm_off_turn_le {m : TwoQubit} {q : Matrix (Fin 4) (Fin 4) ℝ} (given : Diagonalizes m p values)
    (orthogonal : q * qᵀ = 1) (positive : 0 < w.weight) (separates : ∀ k l, w.Separates (values k - values l)) :
    ‖off ((q.map ofReal)ᵀ * m * q.map ofReal)‖ ^ 2 ≤ 104 / w.weight * ‖off ((qᵀ * m.map w.blend * q).map ofReal)‖ ^ 2 := by
  have mixture : (qᵀ * m.map w.blend * q).map ofReal = (q.map ofReal)ᵀ * (m.map w.blend).map ofReal * q.map ofReal := by
    ext i j
    simp [Matrix.mul_apply]
  rw [mixture]
  refine (given.turn orthogonal).norm_off_sq_le_of ((given.linear w.blend).turn orthogonal) fun k l => ?_
  rw [← Complex.ofReal_sub, ← map_sub, Complex.norm_real, Real.norm_eq_abs, sq_abs, div_mul_eq_mul_div, le_div_iff₀ positive,
    mul_comm]
  exact separates k l

/-- A mixture that tells the values apart reproduces the matrix. -/
theorem exists_ofMixture (given : Diagonalizes m.toMatrix p values) (size : ‖m.toMatrix‖ ≤ 21 / 10) (positive : 0 < w.weight)
    (separates : ∀ k l, w.Separates (values k - values l)) : ∃ d, Diagonalization.ofMixture? m w = some d := by
  set a := (Mat4.real m).combine w.re (Mat4.imag m) w.im with mixed
  have image : a.toReal = m.toMatrix.map w.blend := toReal_combine m w
  have mirrored (i j : Fin 4) : a i j = a j i := by
    have same := congrFun (congrFun given.symmetric j) i
    change a.toReal i j = a.toReal j i
    rw [image, Matrix.map_apply, Matrix.map_apply, ← same, Matrix.transpose_apply]
  obtain ⟨e, found, orthogonal, small⟩ := Jacobi.exists_default_eigen mirrored
  set q := e.vectors
  have left : ‖off ((q.toRealᵀ * a.toReal * q.toReal).map ofReal)‖ ^ 2 ≤ 12 * (1e-15 * ‖a.toReal‖) ^ 2 := by
    refine norm_off_sq_le fun i j apart => ?_
    rw [Matrix.map_apply, Complex.norm_real]
    exact small i j apart
  have turned := given.norm_off_turn_le orthogonal positive separates
  rw [← image] at turned
  have length : ‖a.toReal‖ ^ 2 / w.weight ≤ (21 / 10) ^ 2 := by
    rw [image, div_le_iff₀ positive, mul_comm]
    exact (norm_map_sq_le w.blend_sq_le _).trans
      (mul_le_mul_of_nonneg_left (pow_le_pow_left₀ (norm_nonneg _) size 2) positive.le)
  have bound : ‖off ((q.toReal.map ofReal)ᵀ * m.toMatrix * q.toReal.map ofReal)‖ ≤ 1e-13 := by
    refine abs_le_of_sq_le_sq' ?_ (by norm_num) |>.2
    calc
      _ ≤ _ := turned
      _ ≤ _ := mul_le_mul_of_nonneg_left left (by positivity)
      _ = 104 * 12 * 1e-15 ^ 2 * (‖a.toReal‖ ^ 2 / w.weight) := by ring
      _ ≤ 104 * 12 * 1e-15 ^ 2 * (21 / 10) ^ 2 := mul_le_mul_of_nonneg_left length (by positivity)
      _ ≤ _ := by norm_num
  have close : (Diagonalization.ofRotation m q).matrix.isClose m 1e-13 = true := by
    refine isClose_of_norm_sub_le ?_
    rw [norm_matrix_ofRotation_sub orthogonal]
    exact bound
  refine ⟨Diagonalization.ofRotation m q, ?_⟩
  unfold Diagonalization.ofMixture?
  rw [← mixed, found]
  exact if_pos close

end Reproduced

/-! ## The stream -/

open Binary64 (Parts)

/-- The bits of the first ten draws. -/
def firstDraws : Vector (UInt64 × UInt64) 10 :=
  #v[(4593873110700064810, 4608079609420734656), (13826414449906186657, 13817487441363032888),
    (13832305497915737473, 13819779998440430755), (13825292083975784319, 13830816755436003855),
    (4608909764756438929, 4604164752711877438), (13831954318055652735, 13826986919824097602),
    (4609816406073653392, 4590523545750331140), (4607832198048019345, 13833812471924704589),
    (4603325333758096847, 4609829832854665194), (13830792061815649119, 4602560667124762507)]

set_option maxRecDepth 100000 in
theorem resultFrom_mixtureDraw :
    (Random.resultFrom (.ofSeed 2023) (Random.repeated mixtureDraw 10)).map (fun x => (x.1.toBits, x.2.toBits)) =
      firstDraws.toList := by
  decide +kernel

theorem exists_mem_mixtures {bits : UInt64 × UInt64} (drawn : bits ∈ firstDraws.toList) :
    ∃ x y : Float, (x.toBits, y.toBits) = bits ∧ (⟨Exact.ofDouble x, Exact.ofDouble y⟩ : Mixture ℝ) ∈ mixtures := by
  rw [← resultFrom_mixtureDraw] at drawn
  obtain ⟨⟨x, y⟩, member, same⟩ := List.mem_map.mp drawn
  have later : (x, y) ∈ laterDraws := by
    rw [laterDraws, show maxTrials - 1 = 10 + 89 from rfl]
    exact (Random.repeated_prefix mixtureDraw 10 89 (.ofSeed 2023)).subset member
  refine ⟨x, y, same, ?_⟩
  rw [mixtures]
  exact List.mem_cons_of_mem _ (List.mem_map.mpr ⟨(x, y), later, rfl⟩)

/-- The directions that are far apart. -/
def direction (i : Fin 7) : UInt64 × UInt64 := firstDraws[(![0, 1, 3, 4, 6, 7, 9] i : Fin 10)]

theorem direction_fine (i : Fin 7) : -56 ≤ (Parts.ofBits (direction i).1).exponent ∧ -56 ≤ (Parts.ofBits (direction i).2).exponent := by
  revert i
  decide +kernel

theorem direction_apart (i j : Fin 7) (distinct : i ≠ j) :
    (Exact.units (direction i).1 ^ 2 + Exact.units (direction i).2 ^ 2) *
        (Exact.units (direction j).1 ^ 2 + Exact.units (direction j).2 ^ 2) <
      26 * (Exact.units (direction i).1 * Exact.units (direction j).2 -
        Exact.units (direction i).2 * Exact.units (direction j).1) ^ 2 := by
  revert i j
  decide +kernel

/-- Seven of the mixtures point in different directions. -/
theorem exists_mixtures_apart :
    ∃ w : Fin 7 → Mixture ℝ, (∀ i, w i ∈ mixtures) ∧ Pairwise fun i j => (w i).Apart (w j) := by
  have drawn (i : Fin 7) : direction i ∈ firstDraws.toList := Vector.mem_toList_iff.mpr (Vector.getElem_mem _)
  choose x y bits member using fun i => exists_mem_mixtures (drawn i)
  refine ⟨_, member, fun i j distinct => ?_⟩
  have values (i : Fin 7) : Exact.ofDouble (x i) = Exact.units (direction i).1 * 2 ^ (-56 : ℤ) ∧
      Exact.ofDouble (y i) = Exact.units (direction i).2 * 2 ^ (-56 : ℤ) := by
    rw [← bits i]
    have fine := direction_fine i
    rw [← bits i] at fine
    exact ⟨Exact.ofDouble_eq_units fine.1, Exact.ofDouble_eq_units fine.2⟩
  have apart : ((Exact.units (direction i).1 ^ 2 + Exact.units (direction i).2 ^ 2) *
      (Exact.units (direction j).1 ^ 2 + Exact.units (direction j).2 ^ 2) : ℝ) <
        26 * (Exact.units (direction i).1 * Exact.units (direction j).2 -
          Exact.units (direction i).2 * Exact.units (direction j).1) ^ 2 := by
    exact_mod_cast direction_apart i j distinct
  have scaled := mul_lt_mul_of_pos_right apart (show (0 : ℝ) < (2 ^ (-56 : ℤ)) ^ 4 by positivity)
  dsimp only [Mixture.Apart, Mixture.weight]
  rw [(values i).1, (values i).2, (values j).1, (values j).2]
  linarith

/-- Every matrix that is diagonal in a real frame is diagonalised. -/
theorem Diagonalizes.exists_diagonalize {m : Mat4 ℝ} {p : Matrix (Fin 4) (Fin 4) ℝ} {values : Fin 4 → ℂ}
    (given : Diagonalizes m.toMatrix p values) (size : ‖m.toMatrix‖ ≤ 21 / 10) : ∃ d, diagonalize m = .ok d := by
  obtain ⟨w, member, apart⟩ := exists_mixtures_apart
  obtain ⟨i, separates⟩ := exists_separates apart values
  obtain ⟨j, distinct⟩ := exists_ne i
  obtain ⟨d, found⟩ := exists_ofMixture given size (apart distinct.symm).positive separates
  rw [diagonalize]
  cases searched : mixtures.findSome? (Diagonalization.ofMixture? m) with
  | some d => exact ⟨d, rfl⟩
  | none =>
    rw [List.findSome?_eq_none_iff] at searched
    have missed := searched _ (member i)
    rw [found] at missed
    cases missed

end Weyl

end Entangle

end
