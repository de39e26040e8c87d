import Mathlib
import Entangle.Random.Source

/-!
# Streams of words

The state that repeated draws leave behind, and their results, as functions of the first state. The multiplicative
generator multiplies the number of its state by a fixed odd number: the number after a count of words is the first one
times a power of the multiplier, reduced to 128 bits. No two states have the same successor, and an odd state stays odd.
-/

namespace Entangle.Random

/-! ## Products of words -/

theorem toNat_mulHigh (a b : UInt64) : (mulHigh a b).toNat = a.toNat * b.toNat / UInt64.size := by
  have below : a.toNat * b.toNat < UInt64.size * UInt64.size := Nat.mul_lt_mul'' a.toNat_lt_size b.toNat_lt_size
  rw [mulHigh]
  exact UInt64.toNat_ofNat'.trans (Nat.mod_eq_of_lt (Nat.div_lt_of_lt_mul below))

/-- The two words of a product lose nothing of it. -/
theorem mulHigh_mul_size_add (a b : UInt64) :
    (mulHigh a b).toNat * UInt64.size + (a * b).toNat = a.toNat * b.toNat := by
  rw [toNat_mulHigh, UInt64.toNat_mul]
  exact Nat.div_add_mod' _ _

/-- The two shifts together are a rotation, by every count. -/
theorem toBitVec_rotateRight64 (x k : UInt64) :
    (rotateRight64 x k).toBitVec = x.toBitVec.rotateRight k.toNat := by
  have right : (x >>> k).toBitVec = x.toBitVec >>> (k.toNat % 64) := by
    simp [UInt64.toBitVec_shiftRight]
  have left : (x <<< ((64 - k) % 64)).toBitVec = x.toBitVec <<< ((64 - k.toNat % 64) % 64) := by
    have count : ((64 - k) % 64 % 64).toNat = (64 - k.toNat % 64) % 64 := by
      have bounded := k.toNat_lt
      simp only [UInt64.toNat_mod, UInt64.toNat_sub, UInt64.reduceToNat]
      omega
    rw [UInt64.toBitVec_shiftLeft, ← count]
    rfl
  rw [rotateRight64, UInt64.toBitVec_or, right, left, BitVec.rotateRight_def]
  -- A whole number of turns shifts by nothing twice, where the rotation shifts everything out once.
  rcases Nat.eq_zero_or_pos (k.toNat % 64) with still | turned
  · simp [still]
  · rw [Nat.mod_eq_of_lt (Nat.sub_lt (by decide) turned)]

/-! ## States as numbers -/

namespace State

theorem toNat_lt (s : State) : s.toNat < 2 ^ 128 := by
  have hi := s.hi.toNat_lt
  have lo := s.lo.toNat_lt
  simp only [toNat, UInt64.size]
  omega

theorem toNat_injective : Function.Injective toNat := by
  rintro ⟨a, b⟩ ⟨c, d⟩ same
  have first := b.toNat_lt
  have second := d.toNat_lt
  simp only [toNat, UInt64.size] at same
  rw [mk.injEq, ← UInt64.toNat_inj, ← UInt64.toNat_inj]
  omega

theorem odd_toNat_iff (s : State) : Odd s.toNat ↔ Odd s.lo.toNat := by
  rw [Nat.odd_iff, Nat.odd_iff, toNat, UInt64.size]
  omega

/-- One full product and two that reach the upper word only make the product of two states: the product of the upper
words falls away. -/
theorem toNat_product (a b : State) :
    toNat ⟨mulHigh a.lo b.lo + (a.hi * b.lo + a.lo * b.hi), a.lo * b.lo⟩ = a.toNat * b.toNat % 2 ^ 128 := by
  have upper : (mulHigh a.lo b.lo + (a.hi * b.lo + a.lo * b.hi)).toNat ≡
      (mulHigh a.lo b.lo).toNat + (a.hi.toNat * b.lo.toNat + a.lo.toNat * b.hi.toNat) [MOD UInt64.size] := by
    simp [Nat.ModEq, UInt64.toNat_add, UInt64.toNat_mul]
  refine (Nat.mod_eq_of_lt (toNat_lt _)).symm.trans ?_
  change _ ≡ _ [MOD UInt64.size * UInt64.size]
  calc
    _ ≡ ((mulHigh a.lo b.lo).toNat + (a.hi.toNat * b.lo.toNat + a.lo.toNat * b.hi.toNat)) * UInt64.size +
        (a.lo * b.lo).toNat [MOD UInt64.size * UInt64.size] := (upper.mul_right' _).add_right _
    _ = (a.hi.toNat * b.lo.toNat + a.lo.toNat * b.hi.toNat) * UInt64.size + a.lo.toNat * b.lo.toNat := by
      rw [add_mul, add_right_comm, mulHigh_mul_size_add, add_comm]
    _ ≡ UInt64.size * UInt64.size * (a.hi.toNat * b.hi.toNat) +
        ((a.hi.toNat * b.lo.toNat + a.lo.toNat * b.hi.toNat) * UInt64.size + a.lo.toNat * b.lo.toNat)
          [MOD UInt64.size * UInt64.size] := (Nat.mul_add_mod_self_left _ _ _).symm
    _ = a.toNat * b.toNat := by
      rw [toNat, toNat]
      ring

end State

/-! ## Runs -/

section Run

variable {σ β : Type}

/-- The state that a draw leaves behind. -/
def stateAfter (start : σ) (draw : Draw σ β) : σ := (StateT.run draw start).run.2

theorem stateAfter_repeated (draw : Draw σ β) (count : ℕ) (s : σ) :
    stateAfter s (repeated draw count) = (stateAfter · draw)^[count] s := by
  induction count generalizing s with
  | zero => rfl
  | succ count ih => exact ih (stateAfter s draw)

/-- Every result is drawn from the state that the earlier draws leave behind. -/
theorem resultFrom_repeated (draw : Draw σ β) (count : ℕ) (s : σ) :
    resultFrom s (repeated draw count) =
      (List.range count).map fun k => resultFrom (stateAfter s (repeated draw k)) draw := by
  induction count generalizing s with
  | zero => rfl
  | succ count ih =>
    rw [List.range_succ_eq_map, List.map_cons, List.map_map]
    exact congrArg (resultFrom s draw :: ·) (ih (stateAfter s draw))

end Run

/-! ## The multiplicative generator -/

namespace Multiplicative

/-- The number that every word multiplies the state by. -/
def multiplier : ℕ := State.toNat ⟨multiplierHigh, multiplierLow⟩

theorem multiplier_odd : Odd multiplier := by
  decide

theorem toNat_advance (s : State) : (advance s).toNat = s.toNat * multiplier % 2 ^ 128 :=
  State.toNat_product s ⟨multiplierHigh, multiplierLow⟩

theorem odd_advance {s : State} (odd : Odd s.toNat) : Odd (advance s).toNat := by
  rw [toNat_advance, Nat.odd_iff, Nat.mod_mod_of_dvd _ (dvd_pow_self 2 (by decide)), ← Nat.odd_iff]
  exact odd.mul multiplier_odd

/-- An odd multiplier loses nothing of a state. -/
theorem advance_injective : Function.Injective advance := by
  intro s t same
  have coprime : Nat.gcd (2 ^ 128) multiplier = 1 := (Nat.coprime_two_left.mpr multiplier_odd).pow_left 128
  have products : s.toNat * multiplier ≡ t.toNat * multiplier [MOD 2 ^ 128] := by
    rw [Nat.ModEq, ← toNat_advance, ← toNat_advance, same]
  exact State.toNat_injective ((products.cancel_right_of_coprime coprime).eq_of_lt_of_lt s.toNat_lt t.toNat_lt)

theorem toBitVec_output (s : State) :
    (output s).toBitVec = (s.hi ^^^ s.lo).toBitVec.rotateRight (s.hi >>> 58).toNat :=
  toBitVec_rotateRight64 _ _

theorem odd_ofSeed (seed : UInt64) : Odd (ofSeed seed).state.toNat := by
  rw [State.odd_toNat_iff, ofSeed, UInt64.toNat_or, Nat.odd_iff, Nat.or_mod_two_eq_one]
  exact .inr rfl

theorem state_stateAfter (g : Multiplicative) (count : ℕ) :
    (stateAfter g (repeated word count)).state = advance^[count] g.state := by
  have step : Function.Semiconj state (stateAfter · word) advance := fun _ => rfl
  rw [stateAfter_repeated]
  exact step.iterate_right count g

theorem toNat_iterate_advance (s : State) (count : ℕ) :
    (advance^[count] s).toNat = s.toNat * multiplier ^ count % 2 ^ 128 := by
  induction count with
  | zero => rw [Function.iterate_zero_apply, pow_zero, mul_one, Nat.mod_eq_of_lt s.toNat_lt]
  | succ count ih => rw [Function.iterate_succ_apply', toNat_advance, ih, Nat.mod_mul_mod, pow_succ multiplier, mul_assoc]

theorem odd_iterate_advance {s : State} (odd : Odd s.toNat) (count : ℕ) : Odd (advance^[count] s).toNat := by
  induction count with
  | zero => exact odd
  | succ count ih =>
    rw [Function.iterate_succ_apply']
    exact odd_advance ih

/-- The stream of a seed. The state after a count of words is the first one times a power of the multiplier, and it is
odd; no two states have the same successor; each word is the exclusive or of the halves of the new state, turned right by
the six upper bits. -/
theorem stream_ofSeed (seed : UInt64) (count : ℕ) :
    let first : Multiplicative := ofSeed seed
    let last := stateAfter first (repeated word count)
    last.state.toNat = first.state.toNat * multiplier ^ count % 2 ^ 128 ∧ Odd last.state.toNat ∧
      (Function.Injective fun g : Multiplicative => stateAfter g word) ∧
      (resultFrom first (repeated word count)).map UInt64.toBitVec = (List.range count).map fun k =>
        let s := (stateAfter first (repeated word (k + 1))).state
        (s.hi ^^^ s.lo).toBitVec.rotateRight (s.hi >>> 58).toNat := by
  intro first last
  have run : last.state = advance^[count] first.state := state_stateAfter first count
  refine ⟨?_, ?_, ?_, ?_⟩
  · rw [run, toNat_iterate_advance]
  · rw [run]
    exact odd_iterate_advance (odd_ofSeed seed) count
  · rintro ⟨s⟩ ⟨t⟩ same
    exact congrArg mk (advance_injective (congrArg state same))
  · rw [resultFrom_repeated, List.map_map]
    refine List.map_congr_left fun k _ => ?_
    dsimp only
    rw [state_stateAfter first (k + 1), Function.iterate_succ_apply', ← state_stateAfter]
    exact toBitVec_output _

example : resultFrom (.ofSeed 2023 : Multiplicative) (repeated word 3) =
    [0x89731dffa4ec5b5f, 0xe4ddf31a104b4a82, 0x4f54805376f3ea91] := by
  decide

end Multiplicative

end Entangle.Random
