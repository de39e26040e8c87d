import Mathlib
import Entangle.Command.Report
import Entangle.Proofs.FlagReading
import Entangle.Proofs.SpecialValues

/-!
# Sources of a configuration

The text of a setting comes from its last flag, and only without one from the environment or the fallback. Values are
made of the texts afterwards, so a variable counts for nothing where a flag sets its setting, also one that no value can
be made of. A configuration is made only of values that the options of a report take.
-/

namespace Entangle

/-! ## Values with names -/

/-- A lookup by name finds the value that has it, where each value is found by its own name. -/
theorem find?_name_eq_some_iff {β : Type} {all : List β} {name : β → String} {key : String} {b : β}
    (own : ∀ b, (all.find? fun c => name c == name b) = some b) :
    (all.find? fun c => name c == key) = some b ↔ name b = key := by
  constructor
  · intro found
    simpa using List.find?_some found
  · rintro rfl
    exact own b

theorem Euler.Basis.parse_eq_ok_iff {α : Type} {text : String} {b : Euler.Basis} :
    (Euler.Basis.parse text : Outcome α Euler.Basis) = .ok b ↔ b.name = Text.latinUpper (Text.trim text) := by
  have own (b : Euler.Basis) : (all.find? fun c => c.name == b.name) = some b := by cases b <;> decide
  rw [← find?_name_eq_some_iff own, parse]
  cases all.find? fun c => c.name == Text.latinUpper (Text.trim text) <;> simp

theorem Synthesis.PulseMode.parse_eq_ok_iff {α : Type} {text : String} {m : Synthesis.PulseMode} :
    (Synthesis.PulseMode.parse text : Outcome α Synthesis.PulseMode) = .ok m ↔ m.name = Text.lower (Text.trim text) := by
  have own (m : Synthesis.PulseMode) : (all.find? fun c => c.name == m.name) = some m := by cases m <;> decide
  rw [← find?_name_eq_some_iff own, parse]
  cases all.find? fun c => c.name == Text.lower (Text.trim text) <;> simp

namespace Command

theorem Setting.variableName_injective : Function.Injective Setting.variableName := by
  intro s t same
  cases s <;> cases t <;> first | rfl | exact absurd same (by decide)

theorem Format.parse_eq_ok_iff {text : String} {f : Format} :
    Format.parse text = .ok f ↔ f.name = Text.lower (Text.trim text) := by
  have own (f : Format) : (all.find? fun c => c.name == f.name) = some f := by cases f <;> decide
  rw [← find?_name_eq_some_iff own, parse]
  cases all.find? fun c => c.name == Text.lower (Text.trim text) <;> simp

theorem parseFidelity_eq_ok_iff {text : String} {x : Float} : parseFidelity text = .ok x ↔
    Numeral.read (Text.trim text).toList = .ok x ∧ Scalar.isProbability x = true := by
  rw [parseFidelity]
  cases Numeral.read (Text.trim text).toList with
  | error refusal => simp
  | ok y =>
    simp only [Except.ok.injEq]
    split
    · rename_i inside
      simp only [Except.ok.injEq, iff_self_and]
      rintro rfl
      exact inside
    · rename_i outside
      simp only [reduceCtorEq, false_iff, not_and]
      rintro rfl
      exact outside

namespace Config

variable {c : Config} {text : Setting → String} {isOn : Switch → Bool}

/-- What a configuration has from the texts of the settings and the positions of the switches. -/
structure MadeOf (c : Config) (text : Setting → String) (isOn : Switch → Bool) : Prop where
  basisGate : c.basisGate = Text.trim (text .basisGate)
  family : c.family = Text.trim (text .family)
  euler : c.euler.name = Text.latinUpper (Text.trim (text .euler))
  fidelity : Numeral.read (Text.trim (text .fidelity)).toList = .ok c.fidelity
  probability : Scalar.isProbability c.fidelity = true
  pulse : c.pulse.name = Text.lower (Text.trim (text .pulse))
  format : c.format.name = Text.lower (Text.trim (text .format))
  weylOnly : c.weylOnly = isOn .weyl
  approximate : c.approximate = !isOn .exact

theorem ofTexts_eq_ok_iff : ofTexts text isOn = .ok c ↔ c.MadeOf text isOn := by
  simp only [ofTexts, lift, bind_eq_ok, mapError_eq_ok, Euler.Basis.parse_eq_ok_iff, parseFidelity_eq_ok_iff,
    Synthesis.PulseMode.parse_eq_ok_iff, Format.parse_eq_ok_iff]
  constructor
  · rintro ⟨euler, eulerIs, fidelity, ⟨fidelityIs, probability⟩, pulse, pulseIs, format, formatIs, ⟨⟩⟩
    exact ⟨rfl, rfl, eulerIs, fidelityIs, probability, pulseIs, formatIs, rfl, rfl⟩
  · rintro ⟨basisGate, family, euler, fidelity, probability, pulse, format, weylOnly, approximate⟩
    refine ⟨c.euler, euler, c.fidelity, ⟨fidelity, probability⟩, c.pulse, pulse, c.format, format, ?_⟩
    rw [← basisGate, ← family, ← weylOnly, ← approximate]
    rfl

/-- There is a configuration if and only if flags are written and values can be made of the texts, for each setting the
text of its last flag or, without a flag, that of the environment. -/
theorem parse_eq_ok_iff {arguments rest : List String} {env : Environment} : parse arguments env = .ok (c, rest) ↔
    ∃ items, Flag.Reads arguments items rest ∧
      c.MadeOf (fun s => (Flag.lastOf (Flag.Item.textFor s) items).getD (env.default s))
        fun s => (Flag.lastOf (Flag.Item.positionFor s) items).getD false := by
  have sources (items : List Flag.Item) : textOf (items.foldl Flag.Given.with .nothing) env =
      (fun s => (Flag.lastOf (Flag.Item.textFor s) items).getD (env.default s)) ∧
      (items.foldl Flag.Given.with .nothing).isOn = fun s => (Flag.lastOf (Flag.Item.positionFor s) items).getD false := by
    constructor
    · funext s
      rw [textOf, Flag.Given.text_foldl, Flag.Given.nothing, Option.or_none]
    · funext s
      rw [Flag.Given.isOn_foldl, Flag.Given.nothing]
  simp only [parse, bind_eq_ok, mapError_eq_ok, ofTexts_eq_ok_iff, Flag.read]
  constructor
  · rintro ⟨⟨given, rest'⟩, read, c', made, result⟩
    obtain ⟨rfl, rfl⟩ := Prod.mk.inj (Except.ok.inj result)
    obtain ⟨items, reads, rfl⟩ := Flag.readFrom_eq_ok_iff.mp read
    rw [(sources items).1, (sources items).2] at made
    exact ⟨items, reads, made⟩
  · rintro ⟨items, reads, made⟩
    rw [← (sources items).1, ← (sources items).2] at made
    exact ⟨_, Flag.readFrom_eq_ok_iff.mpr ⟨items, reads, rfl⟩, c, made, rfl⟩

/-- Two environments differ at most in the variables of settings that the arguments set. -/
def Agree (arguments : List String) (env env' : Environment) : Prop :=
  ∀ name, (env.get? name).getD "" ≠ (env'.get? name).getD "" →
    ∃ s : Setting, name = s.variableName ∧ Flag.Sets s arguments

theorem textOf_eq_of_agree {arguments rest : List String} {env env' : Environment} (agree : Agree arguments env env')
    {given : Flag.Given} (read : Flag.read arguments = .ok (given, rest)) (s : Setting) :
    textOf given env s = textOf given env' s := by
  rw [textOf, textOf]
  cases text : given.text s with
  | some value => rw [Option.getD_some, Option.getD_some]
  | none =>
    have unset : ¬ Flag.Sets s arguments := fun sets => by
      have given := (Flag.isSome_text_iff read).mpr (.inr sets)
      rw [text] at given
      cases given
    have same : (env.get? s.variableName).getD "" = (env'.get? s.variableName).getD "" := by
      by_contra differ
      obtain ⟨t, name, sets⟩ := agree s.variableName differ
      obtain rfl : s = t := Setting.variableName_injective name
      exact unset sets
    rw [Option.getD_none, Option.getD_none, Environment.default, Environment.default, same]

/-- Every value of a configuration is one that the options of a report take. -/
structure Valid (c : Config) : Prop where
  number : c.fidelity.isNaN = false
  nonneg : 0 ≤ c.fidelity
  atMostOne : c.fidelity ≤ 1
  euler : Euler.Basis.ofNumber? (.ofNat c.euler.number) = some c.euler
  pulse : Synthesis.PulseMode.ofNumber? (.ofNat c.pulse.number) = some c.pulse
  format : c.format.name = "text" ∨ c.format.name = "qasm" ∨ c.format.name = "json"
  /-- the options of a synthesis over the basis gate -/
  gateOptions : (do
    let o ← (Synthesis.Options.default : Synthesis.Options Float).withFidelity c.fidelity
    let o ← o.withEulerNumber (.ofNat c.euler.number)
    o.withPulseNumber (.ofNat c.pulse.number)) = .ok ⟨c.fidelity, c.euler, c.pulse⟩
  /-- the options of a synthesis over the gate family -/
  familyOptions : (Family.Options.withEulerNumber (.ofNat c.euler.number) : Outcome Float Family.Options) = .ok ⟨c.euler⟩

theorem valid_of_isProbability (probability : Scalar.isProbability c.fidelity = true) : c.Valid := by
  have euler : Euler.Basis.ofNumber? (.ofNat c.euler.number) = some c.euler := by
    cases c.euler <;> decide
  have pulse : Synthesis.PulseMode.ofNumber? (.ofNat c.pulse.number) = some c.pulse := by
    cases c.pulse <;> decide
  obtain ⟨nonneg, atMostOne⟩ : 0 ≤ c.fidelity ∧ c.fidelity ≤ 1 := by
    rw [Scalar.isProbability, Bool.and_eq_true, decide_eq_true_iff, decide_eq_true_iff] at probability
    exact probability
  refine ⟨(Binary64.isNaN_of_le atMostOne).1, nonneg, atMostOne, euler, pulse, ?_, ?_, ?_⟩
  · cases c.format <;> decide
  · simp only [Synthesis.Options.withFidelity, probability, Synthesis.Options.withEulerNumber, euler,
      Synthesis.Options.withPulseNumber, pulse]
    rfl
  · simp only [Family.Options.withEulerNumber, euler]

/-- What environments say of settings that flags set does not matter, to the configuration or to a failure, and a
configuration is valid whenever there is one. -/
theorem parse_sources :
    (∀ (arguments : List String) (env env' : Environment), Agree arguments env env' →
      parse arguments env = parse arguments env') ∧
    ∀ (arguments : List String) (env : Environment) (c : Config) (rest : List String),
      parse arguments env = .ok (c, rest) → c.Valid := by
  constructor
  · intro arguments env env' agree
    cases read : Flag.read arguments with
    | error refusal =>
      have refused (env : Environment) : parse arguments env = .error (.flag refusal) := by
        rw [parse, read]
        rfl
      rw [refused, refused]
    | ok result =>
      obtain ⟨given, rest⟩ := result
      have made (env : Environment) : parse arguments env =
          do return (← ofTexts (textOf given env) given.isOn, rest) := by
        rw [parse, read]
        rfl
      rw [made, made, funext (textOf_eq_of_agree agree read)]
  · intro arguments env c rest parsed
    obtain ⟨items, -, made⟩ := parse_eq_ok_iff.mp parsed
    exact valid_of_isProbability made.probability

/-- Arguments that set two of the settings, in one argument and in two. -/
def weylArguments : List String := ["-euler=zsx", "--fidelity", "0.9", "-weyl", "cx"]

/-- Variables of which those for the two settings make no value. -/
def misled : Environment := [("TWOQ_EULER_BASIS", "none"), ("TWOQ_FIDELITY", "NaN"), ("TWOQ_FORMAT", " JSON")]

def unmisled : Environment := [("TWOQ_FORMAT", " JSON")]

/-- Variables without a value do no harm to the settings that flags set. -/
theorem parse_sources_weyl : Agree weylArguments misled unmisled ∧
    parse weylArguments misled = parse weylArguments unmisled ∧
    ∃ c, parse weylArguments misled = .ok (c, ["cx"]) ∧ c.euler = .zsx ∧ c.format = .json ∧ c.Valid := by
  have euler : Flag.Sets .euler weylArguments := .here (.joined .euler false "zsx") _
  have fidelity : Flag.Sets .fidelity weylArguments :=
    .later (.joined .euler false "zsx") (.here (.apart .fidelity true "0.9") _)
  have agree : Agree weylArguments misled unmisled := by
    intro name differ
    by_cases first : name = "TWOQ_EULER_BASIS"
    · exact ⟨.euler, first, euler⟩
    by_cases second : name = "TWOQ_FIDELITY"
    · exact ⟨.fidelity, second, fidelity⟩
    simp [misled, unmisled, Environment.get?, List.lookup_cons, beq_false_of_ne first, beq_false_of_ne second] at differ
  have same := parse_sources.1 weylArguments misled unmisled agree
  have found : (match parse weylArguments misled with
      | .ok (c, rest) => rest == ["cx"] && c.euler == .zsx && c.format == .json
      | .error _ => false) = true := by
    decide +kernel
  cases parsed : parse weylArguments misled with
  | error failure =>
    rw [parsed] at found
    cases found
  | ok result =>
    obtain ⟨c, rest⟩ := result
    rw [parsed] at found
    simp only [Bool.and_eq_true, beq_iff_eq] at found
    obtain ⟨⟨rfl, basis⟩, format⟩ := found
    exact ⟨agree, parsed ▸ same, c, rfl, basis, format, parse_sources.2 weylArguments misled c ["cx"] parsed⟩

end Config

end Command

end Entangle
