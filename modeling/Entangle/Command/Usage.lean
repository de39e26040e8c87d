import Entangle.Command.Failure
import Entangle.Euler.Basis

/-!
# Usage

The text that names the flags, what they are for, and the text that each setting has without its flag.
-/

namespace Entangle.Command

def Setting.purpose : Setting → String
  | basisGate => "entangling basis gate, e.g. cx, cz, iswap, rzx(pi/2)"
  | euler => "one-qubit basis: " ++ ", ".intercalate (Euler.Basis.all.map Euler.Basis.name)
  | family => "synthesize over a parameterized RXX-equivalent family instead, e.g. rzz, cp"
  | fidelity => "basis gate fidelity in [0, 1]"
  | format => "output format: text, qasm, json"
  | pulse => "pulse-efficient CX rewrite: auto, required, off"

def Switch.purpose : Switch → String
  | exact => "never trade exactness for fewer basis gates"
  | weyl => "print only the Weyl decomposition"

/-- What stands after the purpose of a setting: its text without a flag, if there is one. -/
def defaultNote (env : Environment) (s : Setting) : String :=
  let text := env.default s
  if text.isEmpty then "" else " (default " ++ Text.quote text ++ ")"

def flagUsage (env : Environment) : Flag → String
  | .setting s => "  -" ++ s.name ++ " string\n    \t" ++ s.purpose ++ defaultNote env s ++ "\n"
  | .switch s => "  -" ++ s.name ++ "\n    \t" ++ s.purpose ++ "\n"

def usage (env : Environment) : String :=
  "usage: twoq [flags] <gate|matrix-file>\n" ++ String.join (Flag.all.map (flagUsage env))

/-- What is written about a failure where it arises: refused flags bring the usage, after the refusal
unless help was asked for. -/
def Failure.notice (env : Environment) : Failure → String
  | flag .help => usage env
  | flag refusal => refusal.message ++ "\n" ++ usage env
  | _ => ""

end Entangle.Command
