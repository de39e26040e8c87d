import Mathlib
import Entangle.Proofs.ImaginaryUnit
import Entangle.Proofs.PiMultiples

/-!
# Reading an angle

An angle is read from a numeral or, in small letters, from a multiple of π. No text is both: a multiple of π has a `p`, a
numeral has one after the mark of hexadecimal digits alone, and that mark is in no multiple of π. A text that is neither is
a bad parameter.
-/

namespace Entangle

/-! ## Numerals are no multiples of π -/

namespace Text

/-- Of the runs of capital letters only the first one has letters among the first 128 characters. -/
theorem find?_capitalRuns {n : ℕ} (ascii : n < 128) :
    (capitalRuns.find? fun run => run.holds n) = if 0x41 ≤ n ∧ n ≤ 0x5A then some ⟨0x41, 0x5A, 1, 32⟩ else none := by
  obtain ⟨rest, runs, beyond⟩ : ∃ rest, capitalRuns.toList = ⟨0x41, 0x5A, 1, 32⟩ :: rest ∧
      (rest.all fun run => decide (128 ≤ run.first)) = true := ⟨capitalRuns.toList.tail, rfl, by decide +kernel⟩
  have later : (rest.find? fun run => run.holds n) = none := by
    refine List.find?_eq_none.mpr fun run member => ?_
    have first := of_decide_eq_true (List.all_eq_true.mp beyond run member)
    simp only [CaseRun.holds, Bool.and_eq_true, decide_eq_true_iff]
    omega
  rw [← Array.find?_toList, runs, List.find?_cons, later]
  simp only [CaseRun.holds, Nat.mod_one, beq_self_eq_true, Bool.and_true, ← Bool.decide_and]
  by_cases letter : 0x41 ≤ n ∧ n ≤ 0x5A <;> simp [letter]

theorem lowerChar_of_ascii {c : Char} (ascii : c.toNat < 128) : lowerChar c = c.toLower := by
  have capital : c.isUpper = true ↔ 0x41 ≤ c.toNat ∧ c.toNat ≤ 0x5A := by
    simp [Char.isUpper, UInt32.le_iff_toNat_le, ← Char.toNat_val]
  unfold lowerChar
  rw [find?_capitalRuns ascii]
  by_cases letter : c.isUpper = true
  · have each : ∀ n < 0x5B, 0x41 ≤ n → Char.ofNat (n + 32) = (Char.ofNat n).toLower := by decide +kernel
    obtain ⟨least, most⟩ := capital.mp letter
    rw [if_pos ⟨least, most⟩]
    change Char.ofNat (c.toNat + 32) = c.toLower
    simpa only [Char.ofNat_toNat] using each c.toNat (by omega) least
  · rw [if_neg (letter ∘ capital.mpr), Char.toLower_eq_of_not_isUpper letter]

theorem lowerChar_of_toLower {c letter : Char} (ascii : letter.toNat < 128) (small : c.toLower = letter) :
    lowerChar c = letter := by
  have bounded : c.toNat < 128 := by
    by_cases capital : c.isUpper = true
    · simp only [Char.isUpper, decide_eq_true_eq, ge_iff_le, UInt32.le_iff_toNat_le] at capital
      exact capital.2.trans_lt (by decide)
    · rw [Char.toLower_eq_of_not_isUpper capital] at small
      exact small ▸ ascii
  rw [lowerChar_of_ascii bounded, small]

end Text

namespace Numeral

/-- Not the first letter of π, small or capital. -/
def Foreign (c : Char) : Prop := Text.lowerChar c ≠ 'p'

theorem foreign_of_toLower {c letter : Char} (ascii : letter.toNat < 128) (other : letter ≠ 'p') (small : c.toLower = letter) :
    Foreign c := by
  rw [Foreign, Text.lowerChar_of_toLower ascii small]
  exact other

theorem foreign_of_isDigit {c : Char} (digit : c.isDigit = true) : Foreign c :=
  foreign_of_toLower (of_isDigit (fun c => c.toLower.toNat < 128) (by decide) digit)
    (of_isDigit (fun c => c.toLower ≠ 'p') (by decide) digit) rfl

theorem foreign_admits : Admits Foreign 10 where
  digit found := by
    unfold digit? at found
    split at found
    next digit => exact foreign_of_isDigit digit
    next => simp at found
  decimal := foreign_of_isDigit
  underscore := foreign_of_toLower (by decide) (by decide) rfl
  point := foreign_of_toLower (by decide) (by decide) rfl
  plus := foreign_of_toLower (by decide) (by decide) rfl
  minus := foreign_of_toLower (by decide) (by decide) rfl

theorem skips_letters {word cs rest : List Char} (letters : word.all (fun c => c.toNat < 128 ∧ c ≠ 'p') = true)
    (found : dropWord word cs = some rest) : Skips Foreign cs rest := by
  refine (skips_dropWord found).mono fun c member => ?_
  have letter := of_decide_eq_true (List.all_eq_true.mp letters _ member)
  exact foreign_of_toLower letter.1 letter.2 rfl

theorem foreign_scanInfinity {negative : Bool} {cs rest : List Char} {n : Numeral}
    (found : scanInfinity negative cs = some (n, rest)) : Skips Foreign cs rest := by
  unfold scanInfinity at found
  split at found
  next dropped =>
    obtain ⟨-, rfl⟩ := Prod.mk.inj (Option.some.inj found)
    exact skips_letters (by decide) dropped
  next =>
    obtain ⟨rest', dropped, same⟩ := Option.map_eq_some_iff.mp found
    obtain ⟨-, rfl⟩ := Prod.mk.inj same
    exact skips_letters (by decide) dropped

theorem foreign_scanWord {cs rest : List Char} {n : Numeral} (found : scanWord cs = some (n, rest)) :
    Skips Foreign cs rest := by
  unfold scanWord at found
  split at found
  · exact (foreign_scanInfinity found).cons foreign_admits.plus
  · exact (foreign_scanInfinity found).cons foreign_admits.minus
  split at found
  next infinite =>
    obtain rfl := Option.some.inj found
    exact foreign_scanInfinity infinite
  next =>
    obtain ⟨rest', dropped, same⟩ := Option.map_eq_some_iff.mp found
    obtain ⟨-, rfl⟩ := Prod.mk.inj same
    exact skips_letters (by decide) dropped

/-- A numeral has no letter of π, unless it is marked as hexadecimal. -/
theorem foreign_of_scan {cs rest : List Char} {n : Numeral} (found : scan cs = some (n, rest)) :
    Skips Foreign cs rest ∨ 'x' ∈ cs.map Text.lowerChar := by
  unfold scan at found
  split at found
  next word =>
    obtain rfl := Option.some.inj found
    exact .inl (foreign_scanWord word)
  next =>
    obtain ⟨digits, -⟩ := Option.filter_eq_some_iff.mp found
    cases marked : dropHexMark (dropSign cs).2 with
    | none => exact .inl (skips_decimal foreign_admits (fun c => foreign_of_toLower (by decide) (by decide)) marked digits)
    | some hexBody =>
      right
      obtain ⟨used, split, -⟩ := skips_dropSign foreign_admits cs
      unfold dropHexMark at marked
      split at marked
      next mark c rest body =>
        split at marked
        next small =>
          rw [split, body]
          refine List.mem_map.mpr ⟨mark, by simp, Text.lowerChar_of_toLower (by decide) (beq_iff_eq.mp small)⟩
        next => cases marked
      next => cases marked

end Numeral

namespace Gate

open Numeral (Digits)
open PiMultiple (Span span_of_coefficient span_of_factor)

theorem PiAngle.mem_p {cs : List Char} {x : Float} (angle : PiAngle cs x) : 'p' ∈ cs := by
  have within {cs : List Char} {x : Float} (multiple : Multiple cs x) : 'p' ∈ cs := by
    cases multiple
    simp
  cases angle with
  | plain multiple => exact within multiple
  | negated multiple => exact List.mem_cons_of_mem _ (within multiple)

theorem PiMultiple.Span.notMem {cs : List Char} (span : Span cs) {c : Char} (digit : c.isDigit = false) (point : c ≠ '.') :
    c ∉ cs := by
  have other {cs : List Char} (all : Digits cs) : c ∉ cs := fun member => by
    rw [all c member] at digit
    cases digit
  rcases span with all | ⟨digits, fraction, rfl, all, all'⟩
  · exact other all
  · rw [List.mem_append, List.mem_cons, not_or, not_or]
    exact ⟨other all, point, other all'⟩

theorem Gaps.notMem {gaps : List Char} (blank : Gaps gaps) {c : Char} (inked : Text.isGap c = false) : c ∉ gaps := by
  intro member
  rw [blank c member] at inked
  cases inked

/-- No multiple of π has the mark of a hexadecimal numeral. -/
theorem PiAngle.notMem_x {cs : List Char} {x : Float} (angle : PiAngle cs x) : 'x' ∉ cs := by
  have after {divisor : List Char} {d : Float} (known : Divisor divisor d) : 'x' ∉ divisor := by
    cases known with
    | absent => simp
    | written blank blank' digit factor other =>
      have own := (span_of_factor factor).notMem (c := 'x') rfl (by decide)
      simp [blank.notMem (c := 'x') rfl, blank'.notMem (c := 'x') rfl, own]
  have within {cs : List Char} {x : Float} (multiple : Multiple cs x) : 'x' ∉ cs := by
    cases multiple with
    | mk known blank sign blank' known' =>
      have own := (span_of_coefficient known).notMem (c := 'x') rfl (by decide)
      rcases sign with rfl | rfl <;>
        simp [own, blank.notMem (c := 'x') rfl, blank'.notMem (c := 'x') rfl, after known']
  cases angle with
  | plain multiple => exact within multiple
  | negated multiple => simpa using within multiple

/-- A text that is read as a numeral is no multiple of π. -/
theorem not_piAngle_of_read {cs : List Char} {x y : Float} (read : Numeral.read cs = .ok x) :
    ¬ PiAngle (cs.map Text.lowerChar) y := by
  intro angle
  have scanned : ∃ n, Numeral.scan cs = some (n, []) := by
    unfold Numeral.read at read
    split at read
    next n found => exact ⟨n, found⟩
    next => cases read
  obtain ⟨n, found⟩ := scanned
  rcases Numeral.foreign_of_scan found with foreign | hexadecimal
  · obtain ⟨c, member, letter⟩ := List.mem_map.mp angle.mem_p
    exact foreign.all c member letter
  · exact angle.notMem_x hexadecimal

/-! ## Reading -/

/-- Which texts are read as angles, and as which: a numeral or else a multiple of π, in small letters and without the
blanks around it. Every other text is a bad parameter. -/
theorem parseParam_reads (s : String) :
    (∀ x, parseParam s = .ok x ↔ Text.trim s ≠ "" ∧
      (Numeral.read (Text.trim s).toList = .ok x ∨ PiAngle (Text.lower (Text.trim s)).toList x)) ∧
    (∀ x y, Numeral.read (Text.trim s).toList = .ok x → ¬ PiAngle (Text.lower (Text.trim s)).toList y) ∧
    ∀ fault, parseParam s = .error fault → fault.cause? = some .badParameter := by
  have apart : ∀ x y, Numeral.read (Text.trim s).toList = .ok x → ¬ PiAngle (Text.lower (Text.trim s)).toList y := by
    intro x y read
    rw [Text.lower, String.toList_map]
    exact not_piAngle_of_read read
  refine ⟨fun x => ?_, apart, fun fault failed => ?_⟩
  · unfold parseParam
    dsimp only
    split
    next empty =>
      refine iff_of_false (by simp) fun known => known.1 ?_
      simpa using empty
    next filled =>
      have some : Text.trim s ≠ "" := by simpa using filled
      split
      next y read =>
        rw [read]
        constructor
        · intro same
          exact ⟨some, .inl (congrArg Except.ok (Except.ok.inj same))⟩
        · rintro ⟨-, same | angle⟩
          · exact congrArg Except.ok (Except.ok.inj same)
          · exact absurd angle (apart y x read)
      next refusal read =>
        rw [read, ← PiMultiple.parse_eq_some_iff]
        simp only [some, ne_eq, not_false_eq_true, reduceCtorEq, false_or, true_and]
        split
        next y known => rw [known, Except.ok.injEq, Option.some.injEq]
        next none => simp [none]
  · unfold parseParam at failed
    dsimp only at failed
    split at failed
    · obtain rfl := Except.error.inj failed
      rfl
    split at failed
    · cases failed
    split at failed
    · cases failed
    · obtain rfl := Except.error.inj failed
      rfl

end Gate

end Entangle
