import Mathlib
import Entangle.Gate.Call
import Entangle.Proofs.CircuitText
import Entangle.Proofs.DecimalReading
import Entangle.Proofs.DoubleRounding
import Entangle.Proofs.WrittenAngles
import Entangle.Proofs.WrittenMatrices

/-!
# Gates read back

An angle that is written as a decimal is read back as it is. One that is written as a multiple of π is read back as the
double of that multiple, which is as close to it as the writer found it to be. The name, the parentheses and the commas of
a written gate are told apart from its angles, so the gate is read back with all of them.
-/

namespace Entangle

/-- A text without capital letters is its own text in small letters. -/
theorem Text.lower_of_small {s : String} (small : ∀ c ∈ s.toList, c.toNat < 128 ∧ c.toLower = c) : lower s = s := by
  rw [← String.toList_inj, lower, String.toList_map]
  refine (List.map_congr_left fun c member => ?_).trans (List.map_id _)
  exact lowerChar_of_toLower ((small c member).2 ▸ (small c member).1) (small c member).2

/-! ## The characters of a written angle -/

namespace Gate

/-- A character of a decimal or of a multiple of π. -/
def AngleMark (c : Char) : Prop := Decimal.Mark c ∨ c ∈ ['p', 'i', '*', '/']

instance : DecidablePred AngleMark := fun c => inferInstanceAs (Decidable (Decimal.Mark c ∨ c ∈ ['p', 'i', '*', '/']))

/-- What holds of eighteen characters holds of every character of a written angle. -/
theorem of_angleMark (holds : Char → Prop) [DecidablePred holds]
    (decimal : ['.', 'e', '+', '-', '0', '1', '2', '3', '4', '5', '6', '7', '8', '9'].all (holds ·) = true)
    (multiple : ['p', 'i', '*', '/'].all (holds ·) = true) {c : Char} (mark : AngleMark c) : holds c := by
  rcases mark with mark | other
  · exact Decimal.of_mark holds decimal mark
  · exact of_decide_eq_true (List.all_eq_true.mp multiple c other)

/-- A text that is not empty and has the characters of an angle. -/
structure Inked (text : String) : Prop where
  some : text.toList ≠ []
  marks : ∀ c ∈ text.toList, AngleMark c

variable {text : String} {x : Float}

theorem inked_piText? (found : piText? x = some text) : Inked text := by
  have forms : (piForms.all fun form => !form.2.toList.isEmpty && form.2.toList.all (AngleMark ·)) = true := by
    decide +kernel
  obtain ⟨form, member, written⟩ := mem_of_piText? found
  have own := List.all_eq_true.mp forms form member
  rw [Bool.and_eq_true, Bool.not_eq_true', List.isEmpty_eq_false_iff, List.all_eq_true] at own
  have marks : ∀ c ∈ form.2.toList, AngleMark c := fun c letter => of_decide_eq_true (own.2 c letter)
  rcases written with rfl | rfl
  · exact ⟨own.1, marks⟩
  · constructor
    · rw [String.toList_append]
      exact List.append_ne_nil_of_right_ne_nil _ own.1
    · rw [String.toList_append]
      intro c letter
      rcases List.mem_append.mp letter with sign | letter
      · obtain rfl := List.mem_singleton.mp sign
        decide
      · exact marks c letter

theorem inked_general (finite : x.isFinite = true) : Inked (Decimal.general x) := by
  have read := Decimal.read_general finite
  obtain ⟨number, bounded⟩ := Binary64.isFinite_iff.mp finite
  constructor
  · intro empty
    rw [empty] at read
    cases read
  · rw [Decimal.general_of_finite number bounded, String.toList_ofList]
    intro c member
    rcases List.mem_append.mp member with sign | magnitude
    · left
      cases Binary64.signBit x <;> simp_all [Decimal.Mark]
    · exact .inl (Decimal.mark_of_mem_magnitudeText magnitude)

theorem inked_formatParam (finite : x.isFinite = true) : Inked (formatParam x) := by
  rw [formatParam]
  cases found : piText? x with
  | some text => exact inked_piText? found
  | none => exact inked_general finite

theorem Inked.trim (inked : Inked text) : Text.trim text = text := by
  have plain {cs : List Char} (marks : ∀ c ∈ cs, AngleMark c) : cs.dropWhile Text.isBlank = cs := by
    cases cs with
    | nil => rfl
    | cons c cs =>
      have inked := of_angleMark (fun c => Text.isBlank c = false) (by decide) (by decide) (marks c List.mem_cons_self)
      rw [List.dropWhile_cons_of_neg (by simp [inked])]
  rw [Text.trim, Text.trimChars, plain inked.marks, plain (fun c member => inked.marks c (List.mem_reverse.mp member)),
    List.reverse_reverse, String.ofList_toList]

theorem Inked.lower (inked : Inked text) : Text.lower text = text :=
  Text.lower_of_small fun c member =>
    of_angleMark (fun c => c.toNat < 128 ∧ c.toLower = c) (by decide) (by decide) (inked.marks c member)

/-! ## Angles read back -/

/-- Without blanks and capital letters a text is read as a numeral, or else as a multiple of π. -/
theorem parseParam_of_inked (inked : Inked text) {y : Float}
    (read : Numeral.read text.toList = .ok y ∨
      (Numeral.read text.toList).toOption = none ∧ (PiMultiple.parse text.toList).bind PiMultiple.value? = some y) :
    parseParam text = .ok y := by
  have filled : text.isEmpty = false := by
    have := inked.some
    simpa using this
  rw [parseParam, inked.trim, filled, inked.lower]
  rcases read with numeral | ⟨refused, multiple⟩
  · simp only [numeral, Bool.false_eq_true, if_false]
  · cases numeral : Numeral.read text.toList with
    | ok x =>
      rw [numeral] at refused
      cases refused
    | error refusal => simp only [multiple, Bool.false_eq_true, if_false]

/-- The text is no numeral, and as a multiple of π it stands for a double within `10^-14` of another. -/
def multipleNear (text : String) (v : Float) : Bool :=
  (Numeral.read text.toList).toOption.isNone &&
    ((PiMultiple.parse text.toList).bind PiMultiple.value?).any fun y =>
      y.isFinite && v.isFinite && decide ((y - v).abs < 1e-14)

/-- Each form stands for its value, and for the opposite with a sign before it. -/
theorem multipleNear_forms :
    (piForms.all fun form => multipleNear form.2 form.1 && multipleNear ("-" ++ form.2) (-form.1)) = true := by
  decide +kernel

/-- What is read for an angle: the angle itself if it is written as a decimal, and otherwise a double near it. -/
structure ReadBack (x y : Float) : Prop where
  finite : y.isFinite = true
  near : |Exact.ofDouble y - Exact.ofDouble x| < 2e-10
  same : piText? x = none → y = x

/-- A text near a value is read as an angle near every angle near the value. -/
theorem readBack_of_multipleNear {v : Float} (inked : Inked text) (multiple : multipleNear text v = true)
    (finite : x.isFinite = true) (near : (x - v).abs < 1e-10) (written : piText? x ≠ none) :
    ∃ y, parseParam text = .ok y ∧ ReadBack x y := by
  rw [multipleNear, Bool.and_eq_true, Option.isNone_iff_eq_none, Option.any_eq_true] at multiple
  obtain ⟨refused, y, value, found⟩ := multiple
  rw [Bool.and_eq_true, Bool.and_eq_true, decide_eq_true_iff] at found
  obtain ⟨⟨finite', exact⟩, close⟩ := found
  refine ⟨y, parseParam_of_inked inked (.inr ⟨refused, value⟩), finite', ?_, fun none => absurd none written⟩
  have wrote := @Binary64.abs_ofDouble_sub_lt x v 7737125245533627 (-86) 1e-10 finite exact (by decide) rfl
    (by constructor <;> decide) near
  have read := @Binary64.abs_ofDouble_sub_lt y v 6338253001141147 (-99) 1e-14 finite' exact (by decide) rfl
    (by constructor <;> decide) close
  have least : (2 : ℝ) ^ (-1074 : ℤ) ≤ 2 ^ (-52 : ℤ) := zpow_le_zpow_right₀ one_le_two (by norm_num)
  rw [abs_sub_comm] at wrote
  calc |Exact.ofDouble y - Exact.ofDouble x|
      ≤ |Exact.ofDouble y - Exact.ofDouble v| + |Exact.ofDouble v - Exact.ofDouble x| := abs_sub_le _ _ _
    _ < _ := add_lt_add read wrote
    _ ≤ 6338253001141147 * 2 ^ (-99 : ℤ) * (1 + 2 ^ (-52 : ℤ)) + 2 ^ (-52 : ℤ) +
        (7737125245533627 * 2 ^ (-86 : ℤ) * (1 + 2 ^ (-52 : ℤ)) + 2 ^ (-52 : ℤ)) := by
      push_cast
      gcongr
    _ ≤ 2e-10 := by norm_num

theorem isFinite_forms : (piForms.all fun form => form.1.isFinite) = true := by decide +kernel

/-- Every finite angle is read back. -/
theorem parseParam_formatParam (finite : x.isFinite = true) : ∃ y, parseParam (formatParam x) = .ok y ∧ ReadBack x y := by
  have inked := inked_formatParam finite
  rw [formatParam] at inked ⊢
  cases found : piText? x with
  | none =>
    rw [found] at inked
    exact ⟨x, parseParam_of_inked inked (.inl (Decimal.read_general finite)), finite, by norm_num, fun _ => rfl⟩
  | some text =>
    rw [found] at inked
    have written : piText? x ≠ none := by simp [found]
    obtain ⟨form, member, chosen⟩ := List.exists_of_findSome?_eq_some found
    have each := List.all_eq_true.mp multipleNear_forms form member
    rw [Bool.and_eq_true] at each
    dsimp only at chosen
    split at chosen
    next near =>
      obtain rfl := Option.some.inj chosen
      exact readBack_of_multipleNear inked each.1 finite near written
    split at chosen
    next near =>
      obtain rfl := Option.some.inj chosen
      rw [Binary64.add_eq_sub finite (List.all_eq_true.mp isFinite_forms form member)] at near
      exact readBack_of_multipleNear inked each.2 finite near written
    next => cases chosen

/-! ## Calls -/

namespace Call

/-- The splitter at commas. -/
theorem splitCommas_eq (cs : List Char) : splitCommas cs = cs.splitOn ',' := by
  have split (part : List Char) : splitCommasFrom part cs = List.splitOnPPrepend (· == ',') cs part := by
    induction cs generalizing part with
    | nil => rfl
    | cons c cs ih =>
      rw [splitCommasFrom, List.splitOnPPrepend_cons_eq_if, ih, ih]
      rfl
  exact split []

/-- Parts without commas are told apart by the commas between them. -/
theorem splitCommas_intercalate {parts : List String} (some : parts ≠ []) (plain : ∀ part ∈ parts, ',' ∉ part.toList) :
    splitCommas (",".intercalate parts).toList = parts.map String.toList := by
  rw [splitCommas_eq, String.toList_intercalate]
  exact List.splitOn_intercalate ',' (List.forall_mem_map.mpr plain) (by simpa using some)

/-- A name is what stands before the first character that belongs to no name. -/
theorem Shape.parse_append {name tail : List Char} {first : Char} (start : name.head? = some first)
    (letter : isNameStart first = true) (parts : ∀ c ∈ name, isNamePart c = true)
    (ends : ∀ c ∈ tail.head?, isNamePart c = false ∧ Text.isGap c = false) :
    Shape.parse (name ++ tail) = (parseArguments tail).map fun arguments => ⟨name, arguments⟩ := by
  obtain ⟨rest, rfl⟩ : ∃ rest, name = first :: rest := List.head?_eq_some_iff.mp start
  have inked : Text.isGap first = false := by
    rw [Bool.eq_false_iff]
    intro gap
    simp only [Text.isGap, Bool.or_eq_true, beq_iff_eq] at gap
    rcases gap with (((rfl | rfl) | rfl) | rfl) | rfl <;> exact absurd letter (by decide)
  have stop : tail.takeWhile isNamePart = [] ∧ tail.dropWhile isNamePart = tail ∧ tail.dropWhile Text.isGap = tail := by
    cases tail with
    | nil => exact ⟨rfl, rfl, rfl⟩
    | cons c tail =>
      obtain ⟨other, ink⟩ := ends c rfl
      simp [other, ink]
  have body : ((first :: rest) ++ tail).dropWhile Text.isGap = (first :: rest) ++ tail :=
    List.dropWhile_cons_of_neg (by simp [inked])
  rw [Shape.parse, body]
  simp only [List.cons_append, letter, if_true]
  rw [← List.cons_append, List.dropWhile_append_of_pos parts, List.takeWhile_append_of_pos parts, stop.1, stop.2.1,
    stop.2.2, List.append_nil]

theorem parseArguments_parentheses {arguments : List Char} (plain : ')' ∉ arguments) :
    parseArguments ('(' :: (arguments ++ [')'])) = some arguments := by
  have inside : ∀ c ∈ arguments, (c != ')') = true := fun c member => by
    rw [bne_iff_ne]
    rintro rfl
    exact plain member
  rw [parseArguments, List.dropWhile_append_of_pos inside, List.takeWhile_append_of_pos inside]
  simp

variable {xs : List Float}

theorem exists_readBack (finite : ∀ x ∈ xs, x.isFinite = true) :
    ∃ ys, List.Forall₂ (fun x y => parseParam (formatParam x) = .ok y) xs ys ∧ List.Forall₂ ReadBack xs ys := by
  induction xs with
  | nil => exact ⟨[], .nil, .nil⟩
  | cons x xs ih =>
    rw [List.forall_mem_cons] at finite
    obtain ⟨y, read, back⟩ := parseParam_formatParam finite.1
    obtain ⟨ys, reads, backs⟩ := ih finite.2
    exact ⟨y :: ys, .cons read reads, .cons back backs⟩

/-- The written angles between commas have the characters of angles and commas alone. -/
theorem mem_arguments (finite : ∀ x ∈ xs, x.isFinite = true) :
    ∀ c ∈ (",".intercalate (xs.map formatParam)).toList, c = ',' ∨ AngleMark c :=
  Text.forall_mem_intercalate (fun _ member => .inl (List.mem_singleton.mp member))
    (List.forall_mem_map.mpr fun x member _ letter => .inr ((inked_formatParam (finite x member)).marks _ letter))

theorem parseParams_written (some : xs ≠ []) (finite : ∀ x ∈ xs, x.isFinite = true) :
    ∃ ys, parseParams (",".intercalate (xs.map formatParam)).toList = .ok ys ∧ List.Forall₂ ReadBack xs ys := by
  obtain ⟨ys, reads, backs⟩ := exists_readBack finite
  refine ⟨ys, ?_, backs⟩
  have plain : ∀ part ∈ xs.map formatParam, ',' ∉ part.toList := List.forall_mem_map.mpr fun x member comma =>
    of_angleMark (· ≠ ',') (by decide) (by decide) ((inked_formatParam (finite x member)).marks _ comma) rfl
  have inked : (",".intercalate (xs.map formatParam)).toList.all Text.isBlank = false := by
    obtain ⟨x, rest, rfl⟩ := List.exists_cons_of_ne_nil some
    obtain ⟨filled, marks⟩ := inked_formatParam (finite x List.mem_cons_self)
    obtain ⟨c, tail, first⟩ := List.exists_cons_of_ne_nil filled
    rw [List.all_eq_false]
    refine ⟨c, ?_, ?_⟩
    · rw [List.map_cons]
      cases rest with
      | nil => simp [first]
      | cons second rest => simp [String.intercalate_cons_cons, first]
    · have := of_angleMark (fun c => Text.isBlank c = false) (by decide) (by decide) (marks c (by simp [first]))
      simp [this]
  rw [parseParams, inked, if_neg (by decide), splitCommas_intercalate (by simpa using some) plain]
  rw [mapM_eq_ok, List.forall₂_map_left_iff, List.forall₂_map_left_iff]
  simpa only [String.ofList_toList] using reads

/-- Every gate has a name of small letters and digits. -/
theorem name_spec (g : Standard) : (∃ first, g.name.toList.head? = some first ∧ isNameStart first = true) ∧
    ∀ c ∈ g.name.toList, isNamePart c = true ∧ c.toNat < 128 ∧ c.toLower = c := by
  have each : (Standard.all.all fun g => g.name.toList.head?.any isNameStart &&
      g.name.toList.all fun c => isNamePart c && decide (c.toNat < 128 ∧ c.toLower = c)) = true := by decide +kernel
  have own := List.all_eq_true.mp each g g.mem_all
  rw [Bool.and_eq_true, Option.any_eq_true, List.all_eq_true] at own
  refine ⟨own.1, fun c member => ?_⟩
  have letter := own.2 c member
  rwa [Bool.and_eq_true, decide_eq_true_iff] at letter

/-- Every gate is found by its name. -/
theorem named_name (g : Standard) : Standard.named g.name = .ok g := by
  have each : (Standard.all.all fun g => Standard.ofName? g.name == some g) = true := by decide +kernel
  have own := List.all_eq_true.mp each g g.mem_all
  rw [Standard.named, eq_of_beq own]

/-- What a gate is read as, once its angles are. -/
theorem parse_of_angles {g : Standard} {text : String} {arguments : List Char} {ys : List Float}
    (small : ∀ c ∈ text.toList, c.toNat < 128 ∧ c.toLower = c)
    (shape : Shape.parse text.toList = some ⟨g.name.toList, arguments⟩) (read : parseParams arguments = .ok ys)
    (count : ys.length = g.angles) : parse text = .ok ⟨g, ys⟩ := by
  rw [parse, Text.lower_of_small small, shape]
  simp only [String.ofList_toList, named_name, read]
  exact if_pos count

theorem instructionText_standard (g : Standard) (xs : List Float) (qubits : List ℤ) :
    Circuit.Sequence.instructionText formatParam ⟨.standard g, xs, qubits⟩ =
      callText g.name xs ++ " " ++ ",".intercalate (qubits.map fun q => s!"q[{q}]") ++ ";\n" := by
  rw [Circuit.Sequence.instructionText_eq, Circuit.Instruction.line, String.append_assoc]
  rfl

/-- The text of a gate with its angles, as an instruction has it before its qubits, is read as the gate with its angles,
each as it is or near it. -/
theorem parse_callText (g : Standard) (count : xs.length = g.angles) (finite : ∀ x ∈ xs, x.isFinite = true) :
    (∀ qubits, Circuit.Sequence.instructionText formatParam ⟨.standard g, xs, qubits⟩ =
      callText g.name xs ++ " " ++ ",".intercalate (qubits.map fun q => s!"q[{q}]") ++ ";\n") ∧
    ∃ ys, parse (callText g.name xs) = .ok ⟨g, ys⟩ ∧ List.Forall₂ ReadBack xs ys := by
  refine ⟨instructionText_standard g xs, ?_⟩
  obtain ⟨⟨first, start, letter⟩, parts⟩ := name_spec g
  have named : ∀ c ∈ g.name.toList, isNamePart c = true := fun c member => (parts c member).1
  rcases eq_or_ne xs [] with rfl | some
  · have text : callText g.name [] = g.name := by rw [callText, List.isEmpty_nil, if_pos rfl, String.append_empty]
    have shape := @Shape.parse_append g.name.toList [] first start letter named (by simp)
    rw [List.append_nil] at shape
    rw [text]
    exact ⟨[], parse_of_angles (fun c member => (parts c member).2) shape rfl count, .nil⟩
  · obtain ⟨ys, read, backs⟩ := parseParams_written some finite
    have text : (callText g.name xs).toList =
        g.name.toList ++ '(' :: ((",".intercalate (xs.map formatParam)).toList ++ [')']) := by
      rw [callText, if_neg (by simpa using some), String.toList_append, String.toList_append, String.toList_append]
      rfl
    have inside := mem_arguments finite
    generalize (",".intercalate (xs.map formatParam)).toList = arguments at text inside read
    have closed : ')' ∉ arguments := by
      intro member
      rcases inside _ member with comma | mark
      · cases comma
      · exact of_angleMark (· ≠ ')') (by decide) (by decide) mark rfl
    refine ⟨ys, parse_of_angles ?_ ?_ read (backs.length_eq ▸ count), backs⟩
    · have small {c : Char} (inside : c = ',' ∨ AngleMark c) : c.toNat < 128 ∧ c.toLower = c := by
        rcases inside with rfl | mark
        · decide
        · exact of_angleMark (fun c => c.toNat < 128 ∧ c.toLower = c) (by decide) (by decide) mark
      rw [text, List.forall_mem_append, List.forall_mem_cons, List.forall_mem_append, List.forall_mem_singleton]
      exact ⟨fun c member => (parts c member).2, by decide, fun c member => small (inside c member), by decide⟩
    · rw [text, Shape.parse_append start letter named (by simp [isNamePart, isNameStart, Text.isGap]),
        parseArguments_parentheses closed]
      rfl

/-- A multiple of π, a small number and a zero with a sign. -/
def mixedAngles : List Float := [Scalar.piTimes 1 3, 1e-300, -0.0]

theorem parse_callText_mixed : mixedAngles.length = Standard.u3.angles ∧ (∀ x ∈ mixedAngles, x.isFinite = true) ∧
    callText "u3" mixedAngles = "u3(pi/3,1e-300,-0)" ∧
    ∃ ys, parse (callText "u3" mixedAngles) = .ok ⟨.u3, ys⟩ ∧ List.Forall₂ ReadBack mixedAngles ys := by
  have finite : ∀ x ∈ mixedAngles, x.isFinite = true := List.all_eq_true.mp (by decide +kernel)
  exact ⟨rfl, finite, by decide +kernel, (parse_callText .u3 rfl finite).2⟩

end Call

end Gate

end Entangle
