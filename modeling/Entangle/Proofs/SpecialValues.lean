import Mathlib
import Entangle.Scalar.Binary64

/-!
# The special values of doubles

How the values that are no number and the infinities pass through the arithmetic of doubles. An operation decodes its
operands, works on what they stand for and encodes the result, so each statement is a case analysis on the operands.
Encoding loses one thing alone: a number may become infinite.
-/

namespace Entangle.Binary64

open Float.Model (UnpackedFloat)
open Float.Model.Format (binary64)
open Float.Model.UnpackedFloat (Sign pack unpack packComponents unpackMantissa_packComponents unpackExponent_packComponents)

variable {x y : Float} {f g : UnpackedFloat}

/-- What a double stands for. -/
def view (x : Float) : UnpackedFloat := x.toModel.unpack

/-- What the double stands for that a result is written as. -/
def encoded (f : UnpackedFloat) : UnpackedFloat := unpack binary64 (pack binary64 f)

theorem view_zero : view 0 = .zero .positive := rfl

theorem view_add (x y : Float) : view (x + y) = encoded (.add binary64 (view x) (view y)) := rfl

theorem view_sub (x y : Float) : view (x - y) = encoded (.sub binary64 (view x) (view y)) := rfl

theorem view_mul (x y : Float) : view (x * y) = encoded (.mul binary64 (view x) (view y)) := rfl

theorem view_div (x y : Float) : view (x / y) = encoded (.div binary64 (view x) (view y)) := rfl

theorem view_abs (x : Float) : view x.abs = encoded (view x).abs := rfl

theorem isNaN_view (x : Float) : x.isNaN = (view x).isNaN := rfl

theorem isInf_view (x : Float) : x.isInf = (view x).isInf := rfl

theorem isFinite_view (x : Float) : x.isFinite = (view x).isFinite := rfl

/-! ## Encoding -/

theorem encoded_infinity (s : Sign) : encoded (.infinity s) = .infinity s := by
  cases s <;> rfl

theorem encoded_zero (s : Sign) : encoded (.zero s) = .zero s := by
  cases s <;> rfl

/-- A number is written as a number or as an infinity. -/
theorem isNaN_encoded (f : UnpackedFloat) : (encoded f).isNaN = f.isNaN := by
  have fields {s : Sign} {e : BitVec 11} (m : BitVec 52) (below : e ≠ -1#_) :
      (unpack binary64 (packComponents binary64 s e m)).isNaN = false := by
    simp only [unpack, unpackMantissa_packComponents, unpackExponent_packComponents, if_neg below]
    split
    · split <;> rfl
    · rfl
  cases f with
  | notANumber => rfl
  | infinity s => rw [encoded_infinity]
  | zero s => rw [encoded_zero]
  | finite s m e positive =>
    rw [encoded, pack]
    split
    · cases s <;> rfl
    · rename_i fits
      split
      · refine fields _ fun same => ?_
        have below : (e + binary64.exponentBias + 52).toNat + 1 < 2048 := not_le.mp fits
        have value : (e + binary64.exponentBias + 52).toNat % 2048 = 2047 := congrArg BitVec.toNat same
        omega
      · exact fields _ (by decide)

theorem isFinite_of_encoded (finite : (encoded f).isFinite = true) : f.isFinite = true := by
  cases f with
  | notANumber => exact absurd finite (by decide)
  | infinity s =>
    rw [encoded_infinity] at finite
    exact finite
  | zero s => rfl
  | finite s m e positive => rfl

/-! ## Comparisons -/

/-- A double is a number, infinite or no number. -/
theorem isFinite_iff : x.isFinite = true ↔ x.isNaN = false ∧ x.isInf = false := by
  rw [isFinite_view, isNaN_view, isInf_view]
  cases view x <;> simp [UnpackedFloat.isFinite, UnpackedFloat.isNaN, UnpackedFloat.isInf]

theorem isFinite_eq_false : x.isFinite = false ↔ x.isNaN = true ∨ x.isInf = true := by
  rw [← Bool.not_eq_true, isFinite_iff, not_and_or, Bool.not_eq_false, Bool.not_eq_false]

theorem compare_swap (f g : UnpackedFloat) : g.compare f = (f.compare g).map Ordering.swap := by
  cases f with
  | notANumber => cases g <;> rfl
  | infinity s =>
    cases g with
    | infinity t => cases s <;> cases t <;> rfl
    | _ => cases s <;> rfl
  | zero s =>
    cases g with
    | infinity t => cases t <;> rfl
    | finite t n k positive => cases t <;> rfl
    | _ => rfl
  | finite s m e positive =>
    cases g with
    | infinity t => cases s <;> cases t <;> rfl
    | finite t n k positive' =>
      have exponents : compare k e = (compare e k).swap := Std.OrientedCmp.eq_swap
      have mantissas : compare n m = (compare m n).swap := Std.OrientedCmp.eq_swap
      have sizes : (compare k e).then (compare n m) = ((compare e k).then (compare m n)).swap := by
        rw [Ordering.swap_then, exponents, mantissas]
      cases s with
      | negative =>
        cases t with
        | negative => exact congrArg (fun o => some o.swap) sizes
        | positive => rfl
      | positive =>
        cases t with
        | negative => rfl
        | positive => exact congrArg some sizes
    | _ => cases s <;> rfl

/-- A value that is no number is compared with none. -/
theorem compare_eq_none : f.compare g = none ↔ f.isNaN = true ∨ g.isNaN = true := by
  have compared {f g : UnpackedFloat} {o : Ordering} (found : f.compare g = some o) (number : f.isNaN = false)
      (number' : g.isNaN = false) : f.compare g = none ↔ f.isNaN = true ∨ g.isNaN = true := by
    simp [found, number, number']
  cases f with
  | notANumber => exact ⟨fun _ => .inl rfl, fun _ => by cases g <;> rfl⟩
  | infinity s =>
    cases g with
    | notANumber => exact ⟨fun _ => .inr rfl, fun _ => rfl⟩
    | _ => cases s <;> exact compared rfl rfl rfl
  | zero s =>
    cases g with
    | notANumber => exact ⟨fun _ => .inr rfl, fun _ => rfl⟩
    | infinity t => cases t <;> exact compared rfl rfl rfl
    | zero t => exact compared rfl rfl rfl
    | finite t n k positive => cases t <;> exact compared rfl rfl rfl
  | finite s m e positive =>
    cases g with
    | notANumber => exact ⟨fun _ => .inr rfl, fun _ => rfl⟩
    | infinity t => cases s <;> cases t <;> exact compared rfl rfl rfl
    | zero t => cases s <;> exact compared rfl rfl rfl
    | finite t n k positive' => cases s <;> cases t <;> exact compared rfl rfl rfl

theorem lt_iff : x < y ↔ (view x).compare (view y) = some .lt := by
  change decide (((view x).compare (view y) == some .lt) = true) = true ↔ _
  simp

theorem le_iff : x ≤ y ↔ (view x).compare (view y) = some .lt ∨ (view x).compare (view y) = some .eq := by
  change decide ((((view x).compare (view y)).any Ordering.isLE) = true) = true ↔ _
  cases (view x).compare (view y) with
  | none => simp
  | some o => cases o <;> simp

theorem beq_iff : (x == y) = true ↔ (view x).compare (view y) = some .eq := by
  change ((view x).compare (view y) == some .eq) = true ↔ _
  simp

/-- Two doubles are ordered unless one of them is no number. -/
theorem not_lt_iff : ¬ x < y ↔ x.isNaN = true ∨ y.isNaN = true ∨ y ≤ x := by
  rw [lt_iff, le_iff, ← or_assoc, isNaN_view, isNaN_view, ← compare_eq_none, compare_swap (view x) (view y)]
  cases (view x).compare (view y) with
  | none => simp
  | some o => cases o <;> simp

theorem isNaN_of_le (below : x ≤ y) : x.isNaN = false ∧ y.isNaN = false := by
  rw [← Bool.not_eq_true, ← Bool.not_eq_true, ← not_or]
  intro lost
  have none : (view x).compare (view y) = none := compare_eq_none.mpr lost
  rw [le_iff, none] at below
  simp at below

/-- Nothing stands above the upper infinity. -/
theorem not_lt_of_isInf (nonneg : 0 ≤ x) (infinite : x.isInf = true) : ¬ x < y := by
  rw [lt_iff]
  rw [le_iff, view_zero] at nonneg
  rw [isInf_view] at infinite
  revert nonneg infinite
  cases view x with
  | infinity s =>
    cases s with
    | negative => simp [UnpackedFloat.compare]
    | positive =>
      cases view y with
      | infinity t => cases t <;> decide
      | _ => simp [UnpackedFloat.compare]
  | _ => simp [UnpackedFloat.isInf]

/-! ## Values that are no number -/

theorem isNaN_iff : x.isNaN = true ↔ view x = .notANumber := by
  rw [isNaN_view]
  cases view x <;> simp [UnpackedFloat.isNaN]

/-- An operation to which an operand that is no number is the result has no number for a result. -/
theorem isNaN_of_operand {op : UnpackedFloat → UnpackedFloat → UnpackedFloat} (left : ∀ g, op .notANumber g = .notANumber)
    (right : ∀ f, op f .notANumber = .notANumber) (lost : x.isNaN = true ∨ y.isNaN = true) :
    (encoded (op (view x) (view y))).isNaN = true := by
  rw [isNaN_encoded]
  rcases lost with lost | lost
  · rw [isNaN_iff.mp lost, left]
    rfl
  · rw [isNaN_iff.mp lost, right]
    rfl

theorem isNaN_add (lost : x.isNaN = true ∨ y.isNaN = true) : (x + y).isNaN = true :=
  isNaN_of_operand (fun _ => rfl) (fun f => by cases f <;> rfl) lost

theorem isNaN_mul (lost : x.isNaN = true ∨ y.isNaN = true) : (x * y).isNaN = true :=
  isNaN_of_operand (fun _ => rfl) (fun f => by cases f <;> rfl) lost

theorem isNaN_div (lost : x.isNaN = true ∨ y.isNaN = true) : (x / y).isNaN = true :=
  isNaN_of_operand (fun _ => rfl) (fun f => by cases f <;> rfl) lost

/-- Rounding gives a number. -/
theorem isNaN_normalize (m e : ℤ) (s : Sign) : (UnpackedFloat.normalize binary64 m e s).isNaN = false := by
  have rounded (t : Sign) (n : ℕ) : (UnpackedFloat.round binary64 t n e).isNaN = false := by
    unfold UnpackedFloat.round UnpackedFloat.roundWithAccuracy
    dsimp only
    split <;> rfl
  unfold UnpackedFloat.normalize
  split
  · exact rounded _ _
  · rfl
  · exact rounded _ _

/-- A difference is no number where an operand is none, and where an infinity is taken from itself. -/
theorem isNaN_sub : (x - y).isNaN = true ↔ x.isNaN = true ∨ y.isNaN = true ∨ x.isInf = true ∧ (x == y) = true := by
  rw [beq_iff, isNaN_view, isNaN_view, isNaN_view, isInf_view, view_sub, isNaN_encoded]
  cases view x with
  | notANumber => simp [UnpackedFloat.sub, UnpackedFloat.isNaN]
  | infinity s =>
    cases view y with
    | infinity t => cases s <;> cases t <;> decide
    | notANumber => simp [UnpackedFloat.sub, UnpackedFloat.isNaN]
    | _ => cases s <;> simp [UnpackedFloat.sub, UnpackedFloat.isNaN, UnpackedFloat.isInf, UnpackedFloat.compare]
  | zero s =>
    cases view y with
    | zero t => cases s <;> cases t <;> decide
    | _ => simp [UnpackedFloat.sub, UnpackedFloat.isNaN, UnpackedFloat.isInf]
  | finite s m e positive =>
    cases view y with
    | finite t n k positive' =>
      have number : (UnpackedFloat.sub binary64 (.finite s m e positive) (.finite t n k positive')).isNaN = false :=
        isNaN_normalize _ _ _
      rw [number]
      simp [UnpackedFloat.isNaN, UnpackedFloat.isInf]
    | _ => simp [UnpackedFloat.sub, UnpackedFloat.isNaN, UnpackedFloat.isInf]

theorem isNaN_abs : x.abs.isNaN = x.isNaN := by
  rw [isNaN_view, isNaN_view, view_abs, isNaN_encoded]
  cases view x <;> rfl

/-! ## Values that are not finite -/

/-- The operands of a finite sum are finite. -/
theorem isFinite_of_add (finite : (x + y).isFinite = true) : x.isFinite = true ∧ y.isFinite = true := by
  rw [isFinite_view, view_add] at finite
  have whole := isFinite_of_encoded finite
  rw [isFinite_view, isFinite_view]
  revert whole
  cases view x with
  | notANumber => exact fun lost => (by cases lost)
  | infinity s =>
    cases view y with
    | infinity t => cases s <;> cases t <;> decide
    | _ => exact fun lost => (by cases lost)
  | _ =>
    cases view y with
    | notANumber => exact fun lost => (by cases lost)
    | infinity t => exact fun lost => (by cases lost)
    | _ => exact fun _ => ⟨rfl, rfl⟩

theorem isFinite_of_sub (finite : (x - y).isFinite = true) : x.isFinite = true ∧ y.isFinite = true := by
  rw [isFinite_view, view_sub] at finite
  have whole := isFinite_of_encoded finite
  rw [isFinite_view, isFinite_view]
  revert whole
  cases view x with
  | notANumber => exact fun lost => (by cases lost)
  | infinity s =>
    cases view y with
    | infinity t => cases s <;> cases t <;> decide
    | _ => exact fun lost => (by cases lost)
  | _ =>
    cases view y with
    | notANumber => exact fun lost => (by cases lost)
    | infinity t => exact fun lost => (by cases lost)
    | _ => exact fun _ => ⟨rfl, rfl⟩

theorem isFinite_of_mul (finite : (x * y).isFinite = true) : x.isFinite = true ∧ y.isFinite = true := by
  rw [isFinite_view, view_mul] at finite
  have whole := isFinite_of_encoded finite
  rw [isFinite_view, isFinite_view]
  revert whole
  cases view x with
  | notANumber => exact fun lost => (by cases lost)
  | infinity s => cases view y <;> exact fun lost => (by cases lost)
  | _ =>
    cases view y with
    | notANumber => exact fun lost => (by cases lost)
    | infinity t => exact fun lost => (by cases lost)
    | _ => exact fun _ => ⟨rfl, rfl⟩

/-- A number stands above no infinity. -/
theorem isFinite_of_abs_le (finite : y.isFinite = true) (within : x.abs ≤ y) : x.isFinite = true := by
  refine isFinite_iff.mpr ⟨isNaN_abs ▸ (isNaN_of_le within).1, ?_⟩
  rw [le_iff, view_abs] at within
  rw [isFinite_view] at finite
  rw [isInf_view]
  revert within finite
  cases view x with
  | infinity s =>
    rw [UnpackedFloat.abs, encoded_infinity]
    cases view y <;> simp [UnpackedFloat.isFinite, UnpackedFloat.compare]
  | _ => exact fun _ _ => rfl

/-! ## Zeros -/

theorem beq_zero_iff : (x == 0) = true ↔ ∃ s, view x = .zero s := by
  rw [beq_iff, view_zero]
  cases view x with
  | notANumber => exact ⟨fun same => (by cases same), fun ⟨_, same⟩ => (by cases same)⟩
  | infinity s => cases s <;> exact ⟨fun same => (by cases same), fun ⟨_, same⟩ => (by cases same)⟩
  | zero s => exact ⟨fun _ => ⟨s, rfl⟩, fun _ => rfl⟩
  | finite s m e positive => cases s <;> exact ⟨fun same => (by cases same), fun ⟨_, same⟩ => (by cases same)⟩

theorem mul_beq_zero (finite : x.isFinite = true) (zero : (y == 0) = true) : (x * y == 0) = true := by
  obtain ⟨t, zero⟩ := beq_zero_iff.mp zero
  rw [isFinite_view] at finite
  rw [beq_zero_iff, view_mul, zero]
  revert finite
  cases view x with
  | notANumber => simp [UnpackedFloat.isFinite]
  | infinity s => simp [UnpackedFloat.isFinite]
  | _ => exact fun _ => ⟨_, encoded_zero _⟩

theorem add_beq_zero (first : (x == 0) = true) (second : (y == 0) = true) : (x + y == 0) = true := by
  obtain ⟨s, first⟩ := beq_zero_iff.mp first
  obtain ⟨t, second⟩ := beq_zero_iff.mp second
  rw [beq_zero_iff, view_add, first, second]
  cases s <;> cases t <;> exact ⟨_, encoded_zero _⟩

theorem sub_beq_zero (first : (x == 0) = true) (second : (y == 0) = true) : (x - y == 0) = true := by
  obtain ⟨s, first⟩ := beq_zero_iff.mp first
  obtain ⟨t, second⟩ := beq_zero_iff.mp second
  rw [beq_zero_iff, view_sub, first, second]
  cases s <;> cases t <;> exact ⟨_, encoded_zero _⟩

/-- Zero times a value that is not finite is no number. -/
theorem isNaN_zero_mul (zero : (x == 0) = true) (large : y.isFinite = false) : (x * y).isNaN = true := by
  obtain ⟨s, zero⟩ := beq_zero_iff.mp zero
  rw [isFinite_view] at large
  rw [isNaN_view, view_mul, isNaN_encoded, zero]
  revert large
  cases view y <;> simp [UnpackedFloat.mul, UnpackedFloat.isFinite, UnpackedFloat.isNaN]

theorem isNaN_zero_div (first : (x == 0) = true) (second : (y == 0) = true) : (x / y).isNaN = true := by
  obtain ⟨s, first⟩ := beq_zero_iff.mp first
  obtain ⟨t, second⟩ := beq_zero_iff.mp second
  rw [isNaN_view, view_div, isNaN_encoded, first, second]
  rfl

/-! ## The tests of a scalar type -/

theorem scalar_isNaN (x : Float) : Scalar.isNaN x = x.isNaN := by
  have same : (view x).compare (view x) = some .eq ↔ (view x).isNaN = false := by
    cases view x with
    | notANumber => decide
    | infinity s => cases s <;> decide
    | zero s => exact ⟨fun _ => rfl, fun _ => rfl⟩
    | finite s m e positive => cases s <;> simp [UnpackedFloat.compare, UnpackedFloat.isNaN]
  change (!(x == x)) = (view x).isNaN
  rw [Bool.eq_iff_iff, Bool.not_eq_true', ← Bool.not_eq_true, beq_iff, same, Bool.not_eq_false]

/-- A number less itself is zero. -/
theorem sub_self_beq_zero (finite : x.isFinite = true) : (x - x == 0) = true := by
  rw [isFinite_view] at finite
  rw [beq_zero_iff, view_sub]
  revert finite
  cases view x with
  | notANumber => simp [UnpackedFloat.isFinite]
  | infinity s => simp [UnpackedFloat.isFinite]
  | zero s => cases s <;> exact fun _ => ⟨_, encoded_zero _⟩
  | finite s m e positive =>
    have nothing : UnpackedFloat.sub binary64 (.finite s m e positive) (.finite s m e positive) = .zero .positive := by
      simp only [UnpackedFloat.sub, Int.sub_self, UnpackedFloat.normalize]
      rfl
    rw [nothing]
    exact fun _ => ⟨_, encoded_zero _⟩

theorem scalar_isFinite (x : Float) : Scalar.isFinite x = x.isFinite := by
  rw [Bool.eq_iff_iff]
  constructor
  · intro zero
    obtain ⟨s, zero⟩ := beq_zero_iff.mp zero
    have finite : (x - x).isFinite = true := by
      rw [isFinite_view, zero]
      rfl
    exact (isFinite_of_sub finite).1
  · exact sub_self_beq_zero

theorem isInf_copysign (x : Float) : (copysign Scalar.infinity x).isInf = true := by
  have sign : x.toBits &&& 0x8000000000000000 = 0 ∨ x.toBits &&& 0x8000000000000000 = 0x8000000000000000 := by
    have top := UInt64.toBitVec_and x.toBits 0x8000000000000000
    rw [show (0x8000000000000000 : UInt64).toBitVec = BitVec.twoPow 64 63 from rfl, BitVec.and_twoPow] at top
    split at top
    · exact .inr (UInt64.eq_of_toBitVec_eq top)
    · exact .inl (UInt64.eq_of_toBitVec_eq top)
  have size : (Scalar.infinity : Float).toBits &&& 0x7FFFFFFFFFFFFFFF = 0x7FF0000000000000 := by decide +kernel
  rw [copysign, size]
  rcases sign with plus | minus
  · rw [plus]
    decide +kernel
  · rw [minus]
    decide +kernel

end Entangle.Binary64
