import Entangle.Command.Report.Render
import Entangle.Command.Usage
import Entangle.Command.VariableFile

/-!
# Runs

A whole run of the command as a function: from the arguments, the environment and the files to the
texts that are written and the exit code.
-/

namespace Entangle.Command

/-- The name that 16 random bytes give a report: in groups of 4, 2, 2, 2 and 6 bytes, with the marks of a
random name in the seventh and the ninth byte. -/
def identifier (bytes : List UInt8) : String :=
  let marked := bytes.mapIdx fun i b =>
    if i = 6 then (b &&& 0x0F) ||| 0x40 else if i = 8 then (b &&& 0x3F) ||| 0x80 else b
  String.ofList ((marked.mapIdx fun i b =>
    let dash := if [4, 6, 8, 10].contains i then ['-'] else []
    dash ++ Text.hexDigits 2 b.toNat).flatten)

/-- What a run is given. -/
structure Invocation where
  arguments : List String
  environment : Environment
  /-- the file of variables, if there is one -/
  variableFile : Option String
  files : Files
  /-- the name that the report gets -/
  id : String

/-- What a run leaves behind. -/
structure Transcript where
  exitCode : Nat
  output : String
  log : String
deriving Repr, DecidableEq

/-- The report on the only argument that is no flag. -/
def prepare (arguments : List String) (env : Environment) (files : Files) (id : String) :
    Except Failure (Config × Report) := do
  let (config, rest) ← Config.parse arguments env
  match rest with
  | [target] =>
      let u ← during "target" (Target.load files target)
      return (config, ← Report.build config id target u)
  | _ => .error (.targetCount rest.length)

/-- The output of a run. -/
def output (arguments : List String) (env : Environment) (files : Files) (id : String) :
    Except Failure String := do
  let (config, report) ← prepare arguments env files id
  during "render" (report.render config.format)

/-- The text with a line feed at its end. -/
def endedLine (text : String) : String := if text.back? = some '\n' then text else text ++ "\n"

/-- Help is no error: it leaves only its notice. -/
def failed (env : Environment) (failure : Failure) : Transcript :=
  match failure with
  | .flag .help => ⟨0, "", failure.notice env⟩
  | _ => ⟨1, "", failure.notice env ++ endedLine ("[TWOQ] " ++ failure.message)⟩

def run (i : Invocation) : Transcript :=
  let env := i.environment.extended i.variableFile
  match output i.arguments env i.files i.id with
  | .ok text => ⟨0, text, ""⟩
  | .error failure => failed env failure

end Entangle.Command
