import Mathlib
import Entangle.Proofs.LocalInvariance

/-!
# How far a fit moves the angles

The fidelity of a fit is a function of the angles that it takes away. Near its maximum it leaves them no room: at
the fidelity that is requested by default, no angle moves by more than a ten-thousandth. An interaction inside of
the chamber is therefore decomposed with its own angles, up to that distance and with their signs.
-/

noncomputable section

namespace Entangle.Weyl

open Complex

variable {f : Form ℝ} {fit : Fitted ℝ}

/-- Three numbers between zero and one, the first at least one half, have complements of at most twice what their product
and their complements' product leave of one. -/
theorem complements_le {x y z loss : ℝ} (large : 1 / 2 ≤ x) (y0 : 0 ≤ y) (z0 : 0 ≤ z) (x1 : x ≤ 1) (y1 : y ≤ 1) (z1 : z ≤ 1)
    (few : loss ≤ 1 / 4) (full : 1 - loss ≤ x * y * z + (1 - x) * (1 - y) * (1 - z)) :
    1 - x ≤ 2 * loss ∧ 1 - y ≤ 2 * loss ∧ 1 - z ≤ 2 * loss := by
  have sum : x * (1 - y) + y * (1 - z) + z * (1 - x) ≤ loss := by linarith
  have xy : 0 ≤ x * (1 - y) := mul_nonneg (by linarith) (by linarith)
  have yz : 0 ≤ y * (1 - z) := mul_nonneg y0 (by linarith)
  have zx : 0 ≤ z * (1 - x) := mul_nonneg z0 (by linarith)
  have halve {p q : ℝ} (half : 1 / 2 ≤ p) (below : q ≤ 1) (small : p * (1 - q) ≤ loss) : 1 - q ≤ 2 * loss := by
    have product := mul_nonneg (sub_nonneg.mpr half) (sub_nonneg.mpr below)
    linarith
  have second : 1 - y ≤ 2 * loss := halve large y1 (by linarith)
  have third : 1 - z ≤ 2 * loss := halve (p := y) (by linarith only [second, few]) z1 (by linarith)
  exact ⟨halve (p := z) (by linarith only [third, few]) x1 (by linarith), second, third⟩

/-- An angle of at most a right one whose cosine is this close to its maximum is small. -/
theorem abs_le_of_cos_sq {x : ℝ} (bounded : |x| ≤ Real.pi / 2) (close : 1 - Real.cos x ^ 2 ≤ 0.0000000025) : |x| ≤ 1e-4 := by
  have few : Real.pi ≤ 3.15 := Real.pi_lt_d2.le
  have chord := Real.mul_le_sin (abs_nonneg x) bounded
  have slope : 0.6 ≤ 2 / Real.pi := by
    rw [le_div_iff₀ Real.pi_pos]
    linarith
  have least : 0.6 * |x| ≤ Real.sin |x| := (mul_le_mul_of_nonneg_right slope (abs_nonneg x)).trans chord
  have square : Real.sin |x| ^ 2 ≤ 0.0000000025 := by
    rw [Real.sin_sq, Real.cos_abs]
    exact close
  have sine : Real.sin |x| ≤ 0.00005 := abs_le_of_sq_le_sq' (by norm_num at square ⊢; exact square) (by norm_num) |>.2
  norm_num at least sine ⊢
  linarith

/-- Differences of angles that cost no more than the default request allows are small. -/
theorem abs_le_of_traceFidelity {x y z : ℝ} (first : |x| ≤ Real.pi / 4) (second : |y| ≤ Real.pi / 2) (third : |z| ≤ Real.pi / 2)
    (reached : 0.999999999 ≤ traceFidelity (canonicalTrace x y z)) : |x| ≤ 1e-4 ∧ |y| ≤ 1e-4 ∧ |z| ≤ 1e-4 := by
  have pi := Real.pi_pos
  have circle (t : ℝ) : Real.sin t ^ 2 = 1 - Real.cos t ^ 2 := Real.sin_sq t
  have large : 1 / 2 ≤ Real.cos x ^ 2 := by
    have most := Real.cos_le_cos_of_nonneg_of_le_pi (abs_nonneg x) (by linarith) first
    rw [Real.cos_abs, Real.cos_pi_div_four] at most
    have root : √2 ^ 2 = (2 : ℝ) := Real.sq_sqrt (by norm_num)
    have square := pow_le_pow_left₀ (by positivity) most 2
    rw [div_pow, root] at square
    linarith
  rw [traceFidelity_canonicalTrace, mul_pow, mul_pow, mul_pow, mul_pow, circle, circle, circle] at reached
  have few : (0.00000000125 : ℝ) ≤ 1 / 4 := by norm_num
  obtain ⟨closeX, closeY, closeZ⟩ := complements_le large (sq_nonneg _) (sq_nonneg _)
    (Real.cos_sq_le_one x) (Real.cos_sq_le_one y) (Real.cos_sq_le_one z) few (by linarith)
  exact ⟨abs_le_of_cos_sq (by linarith) (by linarith), abs_le_of_cos_sq second (by linarith),
    abs_le_of_cos_sq third (by linarith)⟩

/-- Inside of the chamber, the class that is chosen by default keeps the angles up to a ten-thousandth. -/
theorem fit_near (chamber : f.InChamber) (inner : f.a + 1e-4 < Real.pi / 4)
    (fitted : f.fit (f.nearestClass 0.999999999) = .ok fit) :
    |fit.form.a - f.a| ≤ 1e-4 ∧ |fit.form.b - f.b| ≤ 1e-4 ∧ |fit.form.c - f.c| ≤ 1e-4 := by
  have reached := nearestClass_reaches chamber (by norm_num) fitted
  obtain ⟨moved, trace⟩ := fit_moves fitted
  have inside := fit_inChamber chamber fitted
  have nonneg := chamber.nonneg
  have nonneg' := inside.nonneg
  obtain ⟨first, second, third⟩ := chamber
  obtain ⟨first', second', third'⟩ := inside
  obtain ⟨lower, upper⟩ := abs_le.mp third
  obtain ⟨lower', upper'⟩ := abs_le.mp third'
  rcases trace with kept | ⟨swap, turned⟩
  · rw [kept] at reached
    have small := abs_le_of_traceFidelity (abs_le.mpr ⟨by linarith, by linarith⟩) (abs_le.mpr ⟨by linarith, by linarith⟩)
      (abs_le.mpr ⟨by linarith, by linarith⟩) reached
    simpa only [abs_sub_comm] using small
  · -- the swap point is too far away for a form to be turned over
    rw [turned] at reached
    have small := (abs_le_of_traceFidelity (abs_le.mpr ⟨by linarith, by linarith⟩) (abs_le.mpr ⟨by linarith, by linarith⟩)
      (abs_le.mpr ⟨by linarith, by linarith⟩) reached).1
    rw [swap] at moved
    have outer : fit.form.a = Real.pi / 4 := congrArg Prod.fst moved
    rw [outer] at small
    linarith [(abs_le.mp small).2]

section Interactions

variable {a b c : ℝ}

/-- The canonical form of an interaction inside of the chamber has its angles. -/
theorem canonicalForm_interaction (inner : a < Real.pi / 4) (second : b ≤ a) (third : |c| ≤ b) :
    ∃ f : Form ℝ, canonicalForm (interaction a b c) = .ok f ∧ f.matrix = interaction a b c ∧ f.Factored ∧
      f.a = a ∧ f.b = b ∧ f.c = c := by
  have unitary := interaction_unitary a b c
  have exactly := exactlyDiagonalized_interaction a b c
  obtain ⟨f, canonical, denotes, factored⟩ := exactly.exists_form unitary
  have read : coordinates (interaction a b c) = .ok (a, b, c) := by
    refine coordinates_of_upToLocal unitary exactly ⟨second, third⟩ inner ?_
    rw [toMatrix_interaction]
    exact UpToLocal.refl _
  have own := (coordinates_of_canonicalForm canonical).symm.trans read
  obtain ⟨first', second', third'⟩ : f.a = a ∧ f.b = b ∧ f.c = c := by
    simpa only [Except.ok.injEq, Prod.mk.injEq] using own
  exact ⟨f, canonical, denotes, factored, first', second', third'⟩

/-- Its decomposition has them up to a ten-thousandth. -/
theorem ofUnitary_interaction (inner : a + 1e-4 < Real.pi / 4) (second : b ≤ a) (third : |c| ≤ b) :
    ∃ target : Decomposition ℝ, Decomposition.ofUnitary (interaction a b c) .default = .ok target ∧
      |target.a - a| ≤ 1e-4 ∧ |target.b - b| ≤ 1e-4 ∧ |target.c - c| ≤ 1e-4 := by
  obtain ⟨f, canonical, denotes, factored, rfl, rfl, rfl⟩ :=
    canonicalForm_interaction (by norm_num at inner ⊢; linarith) second third
  have chamber := canonicalForm_inChamber canonical
  obtain ⟨fit, fitted, decomposed, -, -⟩ := ofForm_fits factored chamber (by norm_num : (0.999999999 : ℝ) ≤ 1)
  rw [denotes] at decomposed
  refine ⟨fit.decomposition f ⟨some 0.999999999, none⟩, ?_, fit_near chamber inner fitted⟩
  rw [Decomposition.ofUnitary, canonical, default_eq]
  exact decomposed

end Interactions

end Entangle.Weyl

end
