import Entangle.Command.Setting

/-!
# Flags

Reading flags off a list of arguments. A flag has one or two dashes. The text of a setting follows an
equals sign or is the next argument; a switch is on unless an equals sign says otherwise. Reading ends
at the first argument that is no flag, and after an argument of two dashes. Of several flags of one
name the last counts.
-/

namespace Entangle.Command

inductive Flag where
  | setting (s : Setting)
  | switch (s : Switch)
deriving Repr, DecidableEq

namespace Flag

def name : Flag → String
  | setting s => s.name
  | switch s => s.name

/-- All flags, in the order of their names. -/
def all : List Flag :=
  [setting .basisGate, setting .euler, switch .exact, setting .family, setting .fidelity,
    setting .format, setting .pulse, switch .weyl]

theorem mem_all (f : Flag) : f ∈ all := by
  cases f with
  | setting s => cases s <;> decide
  | switch s => cases s <;> decide

def ofName? (text : String) : Option Flag := all.find? fun f => f.name == text

/-- Why a list of arguments is refused. -/
inductive Refusal where
  | malformed (argument : String)
  | undefined (name : String)
  | missingText (name : String)
  | notBoolean (text name : String)
  /-- help was asked for -/
  | help
deriving Repr, DecidableEq

/-- What one argument is. -/
inductive Argument where
  | positional
  | endOfFlags
  | malformed
  | flag (name : String) (text : Option String)
deriving Repr, DecidableEq

/-- The argument with these characters after its dashes. -/
def Argument.ofBody : List Char → Argument
  | [] => malformed
  | '-' :: _ => malformed
  | '=' :: _ => malformed
  | c :: rest =>
      let name := String.ofList (c :: rest.takeWhile (· != '='))
      match rest.dropWhile (· != '=') with
      | _ :: text => flag name (some (String.ofList text))
      | [] => flag name none

def Argument.ofText (argument : String) : Argument :=
  match argument.toList with
  | ['-', '-'] => endOfFlags
  | '-' :: '-' :: body => ofBody body
  | '-' :: c :: body => ofBody (c :: body)
  | _ => positional

/-- The truth value that a text denotes. -/
def boolean? (text : String) : Option Bool :=
  if ["1", "t", "T", "true", "TRUE", "True"].contains text then some true
  else if ["0", "f", "F", "false", "FALSE", "False"].contains text then some false
  else none

/-- What the flags say: the text of each setting that is given, and the position of each switch. -/
structure Given where
  text : Setting → Option String
  isOn : Switch → Bool

namespace Given

def nothing : Given := ⟨fun _ => none, fun _ => false⟩

def withText (g : Given) (s : Setting) (text : String) : Given :=
  { g with text := fun t => if t = s then some text else g.text t }

def withSwitch (g : Given) (s : Switch) (on : Bool) : Given :=
  { g with isOn := fun t => if t = s then on else g.isOn t }

@[simp]
theorem text_withText (g : Given) (s t : Setting) (text : String) :
    (g.withText s text).text t = if t = s then some text else g.text t :=
  rfl

@[simp]
theorem isOn_withText (g : Given) (s : Setting) (text : String) (t : Switch) :
    (g.withText s text).isOn t = g.isOn t :=
  rfl

@[simp]
theorem text_withSwitch (g : Given) (s : Switch) (on : Bool) (t : Setting) :
    (g.withSwitch s on).text t = g.text t :=
  rfl

@[simp]
theorem isOn_withSwitch (g : Given) (s t : Switch) (on : Bool) :
    (g.withSwitch s on).isOn t = if t = s then on else g.isOn t :=
  rfl

end Given

/-- Reads flags from the front of the arguments; the result has the arguments that remain. -/
def readFrom : Given → List String → Except Refusal (Given × List String)
  | g, [] => .ok (g, [])
  | g, argument :: rest =>
      match Argument.ofText argument with
      | .positional => .ok (g, argument :: rest)
      | .endOfFlags => .ok (g, rest)
      | .malformed => .error (.malformed argument)
      | .flag name text =>
          match ofName? name with
          | none => .error (if name = "help" ∨ name = "h" then .help else .undefined name)
          | some (.switch s) =>
              match text with
              | none => readFrom (g.withSwitch s true) rest
              | some value =>
                  match boolean? value with
                  | some on => readFrom (g.withSwitch s on) rest
                  | none => .error (.notBoolean value name)
          | some (.setting s) =>
              match text with
              | some value => readFrom (g.withText s value) rest
              | none =>
                  match rest with
                  | value :: rest => readFrom (g.withText s value) rest
                  | [] => .error (.missingText name)

def read (arguments : List String) : Except Refusal (Given × List String) :=
  readFrom .nothing arguments

end Flag

end Entangle.Command
