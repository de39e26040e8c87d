import Entangle.Text.Blank

/-!
# Settings

What a run of the command can be told by name: settings, which have a text, and switches, which are on
or off. A setting has a flag and a variable of the environment; where neither is given it has a
fallback.
-/

namespace Entangle.Command

inductive Setting where
  | basisGate
  | euler
  | family
  | fidelity
  | format
  | pulse
deriving Repr, DecidableEq

namespace Setting

def all : List Setting := [basisGate, euler, family, fidelity, format, pulse]

theorem mem_all (s : Setting) : s ∈ all := by cases s <;> decide

/-- The name of the flag. -/
def name : Setting → String
  | basisGate => "basis-gate"
  | euler => "euler"
  | family => "family"
  | fidelity => "fidelity"
  | format => "format"
  | pulse => "pulse"

/-- The name of the variable of the environment. -/
def variableName : Setting → String
  | basisGate => "TWOQ_BASIS_GATE"
  | euler => "TWOQ_EULER_BASIS"
  | family => "TWOQ_FAMILY"
  | fidelity => "TWOQ_FIDELITY"
  | format => "TWOQ_FORMAT"
  | pulse => "TWOQ_PULSE"

def fallback : Setting → String
  | basisGate => "cx"
  | euler => "U"
  | family => ""
  | fidelity => "1"
  | format => "text"
  | pulse => "auto"

end Setting

inductive Switch where
  | exact
  | weyl
deriving Repr, DecidableEq

namespace Switch

def all : List Switch := [exact, weyl]

theorem mem_all (s : Switch) : s ∈ all := by cases s <;> decide

def name : Switch → String
  | exact => "exact"
  | weyl => "weyl"

end Switch

/-- The variables that are set, with their texts. Of two bindings of one name the first counts. -/
abbrev Environment := List (String × String)

namespace Environment

def get? (env : Environment) (name : String) : Option String := env.lookup name

/-- The text of a setting for which no flag is given: that of its variable, blanks at the ends aside,
unless nothing is left of it. -/
def default (env : Environment) (s : Setting) : String :=
  let text := Text.trim ((env.get? s.variableName).getD "")
  if text.isEmpty then s.fallback else text

end Environment

end Entangle.Command
