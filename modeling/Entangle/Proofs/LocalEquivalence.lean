import Mathlib
import Entangle.Gate.Matrices
import Entangle.Proofs.SpecialValues
import Entangle.Weyl.Magic

/-!
# Local equivalence of matrices of doubles

Two matrices of doubles are taken for locally equivalent unless the comparison of some invariant fails. A comparison
with a value that is no number does not fail, and neither does one of an infinity with itself. Every matrix with an
entry that is not finite has such values for invariants, and so is taken for equivalent to every other; a matrix
without a determinant has invariants that are not finite.
-/

namespace Entangle

open Binary64

/-! ## Complex numbers without a value -/

namespace Cx

variable {z w : Cx Float}

/-- Some part is no number. -/
def Partial (z : Cx Float) : Prop := z.re.isNaN = true ∨ z.im.isNaN = true

/-- No part is a number. -/
def Lost (z : Cx Float) : Prop := z.re.isNaN = true ∧ z.im.isNaN = true

theorem Lost.partial (lost : z.Lost) : z.Partial := .inl lost.1

theorem Partial.add (lost : z.Partial ∨ w.Partial) : (z + w).Partial := by
  rcases lost with (re | im) | (re | im)
  · exact .inl (isNaN_add (.inl re))
  · exact .inr (isNaN_add (.inl im))
  · exact .inl (isNaN_add (.inr re))
  · exact .inr (isNaN_add (.inr im))

theorem Lost.add (lost : z.Lost ∨ w.Lost) : (z + w).Lost := by
  rcases lost with ⟨re, im⟩ | ⟨re, im⟩
  · exact ⟨isNaN_add (.inl re), isNaN_add (.inl im)⟩
  · exact ⟨isNaN_add (.inr re), isNaN_add (.inr im)⟩

theorem Lost.sub (lost : z.Lost) : (z - w).Lost := ⟨isNaN_sub.mpr (.inl lost.1), isNaN_sub.mpr (.inl lost.2)⟩

/-- Each part of a product takes both parts of both factors. -/
theorem Lost.mul (lost : z.Partial ∨ w.Partial) : (z * w).Lost := by
  rcases lost with (re | im) | (re | im)
  · exact ⟨isNaN_sub.mpr (.inl (isNaN_mul (.inl re))), isNaN_add (.inl (isNaN_mul (.inl re)))⟩
  · exact ⟨isNaN_sub.mpr (.inr (.inl (isNaN_mul (.inl im)))), isNaN_add (.inr (isNaN_mul (.inl im)))⟩
  · exact ⟨isNaN_sub.mpr (.inl (isNaN_mul (.inr re))), isNaN_add (.inr (isNaN_mul (.inr re)))⟩
  · exact ⟨isNaN_sub.mpr (.inr (.inl (isNaN_mul (.inr im)))), isNaN_add (.inl (isNaN_mul (.inr im)))⟩

/-- A part that is not finite meets the zero of the other factor. -/
theorem Partial.mul (zero : (z.re == 0) = true ∨ (z.im == 0) = true) (large : w.isFinite = false) : (z * w).Partial := by
  rw [isFinite, scalar_isFinite, scalar_isFinite, Bool.and_eq_false_iff] at large
  rcases zero with zero | zero <;> rcases large with large | large
  · exact .inl (isNaN_sub.mpr (.inl (isNaN_zero_mul zero large)))
  · exact .inr (isNaN_add (.inl (isNaN_zero_mul zero large)))
  · exact .inr (isNaN_add (.inr (isNaN_zero_mul zero large)))
  · exact .inl (isNaN_sub.mpr (.inr (.inl (isNaN_zero_mul zero large))))

theorem div_def {α : Type} [Scalar α] (z w : Cx α) : z / w =
    if Scalar.isNaN (scaledQuotient z w).re && Scalar.isNaN (scaledQuotient z w).im then
      lostQuotient z w (scaledQuotient z w)
    else scaledQuotient z w := rfl

/-- No rule restores a quotient of a dividend without a value. -/
theorem Lost.div (lost : z.Lost) : (z / w).Lost := by
  have re : Scalar.isNaN z.re = true := by rw [scalar_isNaN, lost.1]
  have im : Scalar.isNaN z.im = true := by rw [scalar_isNaN, lost.2]
  have large : z.isFinite = false := by
    rw [isFinite, scalar_isFinite, Bool.and_eq_false_iff]
    exact .inl (isFinite_eq_false.mpr (.inl lost.1))
  have kept (q : Cx Float) : lostQuotient z w q = q := by
    simp [lostQuotient, Scalar.isInf, re, im, large]
  have scaled : (scaledQuotient z w).Lost := by
    unfold scaledQuotient
    dsimp only
    split
    · exact ⟨isNaN_div (.inl (isNaN_add (.inl lost.1))), isNaN_div (.inl (isNaN_sub.mpr (.inl lost.2)))⟩
    · exact ⟨isNaN_div (.inl (isNaN_add (.inr lost.2))), isNaN_div (.inl (isNaN_sub.mpr (.inr (.inl lost.1))))⟩
  rw [div_def, kept, ite_self]
  exact scaled

theorem Lost.isFinite (lost : z.Lost) : z.re.isFinite = false ∧ z.im.isFinite = false :=
  ⟨isFinite_eq_false.mpr (.inl lost.1), isFinite_eq_false.mpr (.inl lost.2)⟩

/-- A quotient by zero is nowhere finite: the ratio of the divisor's parts has no value, and what is put in the place of
the quotient is infinite. -/
theorem isFinite_div_zero (zero : (w == 0) = true) : (z / w).re.isFinite = false ∧ (z / w).im.isFinite = false := by
  by_cases lost : z.Lost
  · exact lost.div.isFinite
  obtain ⟨re, im⟩ : (w.re == 0) = true ∧ (w.im == 0) = true := (Bool.and_eq_true _ _).mp zero
  have scaled : (scaledQuotient z w).Lost := by
    have denominator {x y : Float} (x0 : (x == 0) = true) (y0 : (y == 0) = true) : (x + y / x * y).isNaN = true :=
      isNaN_add (.inr (isNaN_mul (.inl (isNaN_zero_div y0 x0))))
    unfold scaledQuotient
    dsimp only
    split
    · exact ⟨isNaN_div (.inr (denominator re im)), isNaN_div (.inr (denominator re im))⟩
    · exact ⟨isNaN_div (.inr (denominator im re)), isNaN_div (.inr (denominator im re))⟩
  have value : (!Scalar.isNaN z.re || !Scalar.isNaN z.im) = true := by
    rw [scalar_isNaN, scalar_isNaN, Bool.or_eq_true, Bool.not_eq_true', Bool.not_eq_true']
    rw [Lost, not_and_or, Bool.not_eq_true, Bool.not_eq_true] at lost
    exact lost
  have far {x : Float} : (copysign Scalar.infinity w.re * x).isFinite = false := by
    rw [← Bool.not_eq_true]
    intro finite
    have infinite := isFinite_eq_false.mpr (.inr (isInf_copysign w.re))
    rw [(isFinite_of_mul finite).1] at infinite
    cases infinite
  rw [div_def, scalar_isNaN, scalar_isNaN, scaled.1, scaled.2, Bool.and_self, if_pos rfl, lostQuotient, zero, value,
    Bool.and_self, if_pos rfl]
  exact ⟨far, far⟩

end Cx

/-! ## Matrices -/

section Matrices

variable {a b m : Mat4 Float} {i j : Fin 4}

/-- An entry of a product has what one of its terms has, when sums keep it. -/
theorem Mat4.get_mul_of {P : Cx Float → Prop} (sums : ∀ {z w}, P z ∨ P w → P (z + w)) (k : Fin 4)
    (term : P (a i k * b k j)) : P ((a * b) i j) := by
  rw [Mat4.get_mul]
  match k with
  | 0 => exact sums (.inl (sums (.inl (sums (.inl (sums (.inr term)))))))
  | 1 => exact sums (.inl (sums (.inl (sums (.inr term)))))
  | 2 => exact sums (.inl (sums (.inr term)))
  | 3 => exact sums (.inr term)

theorem Mat4.lost_mul (lost : ∀ i j, (b i j).Lost) : ((a * b) i j).Lost :=
  get_mul_of Cx.Lost.add 0 (Cx.Lost.mul (.inr (lost 0 j).partial))

theorem Mat4.lost_trace (lost : ∀ i j, (m i j).Lost) : m.trace.Lost :=
  Cx.Lost.add (.inl (Cx.Lost.add (.inl (Cx.Lost.add (.inl (lost 0 0))))))

end Matrices

namespace Weyl

open Mat4 (trace det)

section Magic

variable {α : Type} [Scalar α]

/-- The matrix between the magic basis and its adjoint, of which the invariants are made. -/
def betweenMagic (u : Mat4 α) : Mat4 α := magicUnitary.dagger * u * magicUnitary

def gramTrace (ub : Mat4 α) : Cx α := trace (ub.transpose * ub)

def gramSquareTrace (ub : Mat4 α) : Cx α := trace (ub.transpose * ub * (ub.transpose * ub))

theorem toList_ofMatrix (u : Mat4 α) : (Invariants.ofMatrix u).toList =
    [(gramTrace (betweenMagic u) * gramTrace (betweenMagic u) / (16 * det (betweenMagic u))).re + 0,
      (gramTrace (betweenMagic u) * gramTrace (betweenMagic u) / (16 * det (betweenMagic u))).im + 0,
      ((gramTrace (betweenMagic u) * gramTrace (betweenMagic u) - gramSquareTrace (betweenMagic u)) /
        (4 * det (betweenMagic u))).re + 0] := rfl

end Magic

variable {u v : Mat4 Float} {atol x y : Float}

/-- An entry that is not finite spoils a column, and with it every entry of the next product. -/
theorem lost_betweenMagic {k l : Fin 4} (large : (u k l).isFinite = false) (i j : Fin 4) : (betweenMagic u i j).Lost := by
  have zeros : ∀ i k : Fin 4, ((magicUnitary : Mat4 Float).dagger i k).re == 0 ∨
      ((magicUnitary : Mat4 Float).dagger i k).im == 0 := by decide +kernel
  have column : (((magicUnitary : Mat4 Float).dagger * u) i l).Partial :=
    Mat4.get_mul_of Cx.Partial.add k (Cx.Partial.mul (zeros i k) large)
  exact Mat4.get_mul_of Cx.Lost.add l (Cx.Lost.mul (.inl column))

theorem isNaN_ofMatrix {k l : Fin 4} (large : (u k l).isFinite = false) :
    ∀ x ∈ (Invariants.ofMatrix u).toList, x.isNaN = true := by
  have spoilt := lost_betweenMagic large
  have square {w : Cx Float} : (gramTrace (betweenMagic u) * w).Lost :=
    Cx.Lost.mul (.inl (Mat4.lost_trace fun i j => Mat4.lost_mul spoilt).partial)
  rw [toList_ofMatrix]
  simp only [List.forall_mem_cons, List.not_mem_nil, false_imp_iff, implies_true, and_true]
  exact ⟨isNaN_add (.inl square.div.1), isNaN_add (.inl square.div.2), isNaN_add (.inl square.sub.div.1)⟩

/-- A multiple of zero is zero. -/
theorem ofReal_mul_beq_zero {z : Cx Float} (finite : x.isFinite = true) (zero : (z == 0) = true) :
    (Cx.ofReal x * z == 0) = true := by
  obtain ⟨re, im⟩ : (z.re == 0) = true ∧ (z.im == 0) = true := (Bool.and_eq_true _ _).mp zero
  have still : (0 : Float).isFinite = true := by decide +kernel
  refine (Bool.and_eq_true _ _).mpr ⟨?_, ?_⟩
  · exact sub_beq_zero (mul_beq_zero finite re) (mul_beq_zero still im)
  · exact add_beq_zero (mul_beq_zero finite im) (mul_beq_zero still re)

/-- Without a determinant no invariant is finite. -/
theorem isFinite_ofMatrix (singular : (det (betweenMagic u) == 0) = true) :
    ∀ x ∈ (Invariants.ofMatrix u).toList, x.isFinite = false := by
  have infinite {z : Float} (large : z.isFinite = false) : (z + 0).isFinite = false := by
    rw [← Bool.not_eq_true] at large ⊢
    exact fun finite => large (isFinite_of_add finite).1
  have first {z : Cx Float} := Cx.isFinite_div_zero (z := z)
    (ofReal_mul_beq_zero (x := Scalar.ofNat 16) (by decide +kernel) singular)
  have second {z : Cx Float} := Cx.isFinite_div_zero (z := z)
    (ofReal_mul_beq_zero (x := Scalar.ofNat 4) (by decide +kernel) singular)
  rw [toList_ofMatrix]
  simp only [List.forall_mem_cons, List.not_mem_nil, false_imp_iff, implies_true, and_true]
  exact ⟨infinite first.1, infinite first.2, infinite second.1⟩

/-! ## The comparison -/

/-- The two values of an invariant that are taken for equal. -/
inductive Accepted (atol x y : Float) : Prop
  | near (first : x.isFinite = true) (second : y.isFinite = true) (within : (x - y).abs ≤ atol)
  | lost (noNumber : x.isNaN = true ∨ y.isNaN = true)
  | infinite (first : x.isInf = true) (same : (x == y) = true)

theorem accepted_iff (finite : atol.isFinite = true) : ¬ atol < (x - y).abs ↔ Accepted atol x y := by
  rw [not_lt_iff, (isFinite_iff.mp finite).1, isNaN_abs, isNaN_sub]
  constructor
  · rintro (none | (first | second | ⟨infinite, same⟩) | within)
    · cases none
    · exact .lost (.inl first)
    · exact .lost (.inr second)
    · exact .infinite infinite same
    · have both := isFinite_of_sub (isFinite_of_abs_le finite within)
      exact .near both.1 both.2 within
  · intro accepted
    cases accepted with
    | near first second within => exact .inr (.inr within)
    | lost noNumber => exact .inr (.inl (noNumber.imp_right .inl))
    | infinite first same => exact .inr (.inl (.inr (.inr ⟨first, same⟩)))

theorem locallyEquivalent_eq_true : locallyEquivalent u v atol = true ↔
    List.Forall₂ (fun x y => ¬ atol < (x - y).abs) (Invariants.ofMatrix u).toList (Invariants.ofMatrix v).toList := by
  simp only [locallyEquivalent, Invariants.toList, Bool.not_eq_true', Bool.or_eq_false_iff, decide_eq_false_iff_not,
    List.forall₂_cons, List.Forall₂.nil, and_true, and_assoc]
  rfl

theorem forall₂_toList {R : Float → Float → Prop} {g h : Invariants Float}
    (each : ∀ x ∈ g.toList, ∀ y ∈ h.toList, R x y) : List.Forall₂ R g.toList h.toList :=
  List.forall₂_iff_zip.mpr ⟨rfl, fun paired => each _ (List.of_mem_zip paired).1 _ (List.of_mem_zip paired).2⟩

/-- A difference without a value is not above a tolerance. -/
theorem locallyEquivalent_of_lost (lost : ∀ x ∈ (Invariants.ofMatrix u).toList, ∀ y ∈ (Invariants.ofMatrix v).toList,
    x.isNaN = true ∨ y.isNaN = true) : locallyEquivalent u v atol = true := by
  refine locallyEquivalent_eq_true.mpr (forall₂_toList fun x first y second => ?_)
  rw [not_lt_iff, isNaN_abs, isNaN_sub]
  exact .inr (.inl ((lost x first y second).imp_right .inl))

/-- What a test of local equivalence accepts, beyond invariants that are finite and within the tolerance of each other:
invariants that are no numbers, such as those of a matrix with an entry that is not finite, and equal infinities. -/
theorem locallyEquivalent_accepted (u v : Mat4 Float) (atol : Float) (tolerance : 0 ≤ atol) :
    (locallyEquivalent u v atol = true ↔ atol.isInf = true ∨
      List.Forall₂ (Accepted atol) (Invariants.ofMatrix u).toList (Invariants.ofMatrix v).toList) ∧
    ((∃ i j, (u i j).isFinite = false ∨ (v i j).isFinite = false) → locallyEquivalent u v atol = true) ∧
    ((det (betweenMagic u) == 0) = true → ∀ x ∈ (Invariants.ofMatrix u).toList, x.isFinite = false) := by
  refine ⟨?_, ?_, isFinite_ofMatrix⟩
  · rw [locallyEquivalent_eq_true]
    by_cases infinite : atol.isInf = true
    · have never (x : Float) : ¬ atol < x := not_lt_of_isInf tolerance infinite
      simp [infinite, never, Invariants.toList]
    · have finite : atol.isFinite = true :=
        isFinite_iff.mpr ⟨(isNaN_of_le tolerance).2, Bool.not_eq_true _ ▸ infinite⟩
      simp [accepted_iff finite, infinite]
  · rintro ⟨i, j, large | large⟩
    · exact locallyEquivalent_of_lost fun x first _ _ => .inl (isNaN_ofMatrix large x first)
    · exact locallyEquivalent_of_lost fun _ _ y second => .inr (isNaN_ofMatrix large y second)

/-- The matrix of zeros. -/
def null : Mat4 Float := Square.ofFn fun _ _ => 0

/-- Every invariant of the matrix of zeros is a quotient of zeros. -/
theorem isNaN_null : ∀ x ∈ (Invariants.ofMatrix null).toList, x.isNaN = true := by
  decide +kernel

theorem locallyEquivalent_accepted_null :
    List.Forall₂ (Accepted 1e-9) (Invariants.ofMatrix null).toList (Invariants.ofMatrix Gate.cxMatrix).toList := by
  have tolerance : (0 : Float) ≤ 1e-9 := by decide +kernel
  have finite : ¬ (1e-9 : Float).isInf = true := by decide +kernel
  have equivalent : locallyEquivalent null Gate.cxMatrix 1e-9 = true :=
    locallyEquivalent_of_lost fun x first _ _ => .inl (isNaN_null x first)
  exact ((locallyEquivalent_accepted _ _ _ tolerance).1.mp equivalent).resolve_left finite

/-- The matrix of zeros is taken for equivalent to a controlled gate, although none of its invariants is finite. -/
theorem locallyEquivalent_null :
    (0 : Float) ≤ 1e-9 ∧ locallyEquivalent null Gate.cxMatrix 1e-9 = true ∧
      ∀ x ∈ (Invariants.ofMatrix null).toList, x.isFinite = false := by
  refine ⟨by decide +kernel, ?_, ?_⟩
  · exact locallyEquivalent_of_lost fun x first _ _ => .inl (isNaN_null x first)
  · exact fun x member => isFinite_eq_false.mpr (.inl (isNaN_null x member))

end Weyl

end Entangle
