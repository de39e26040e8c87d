import Entangle.Circuit.Qasm
import Entangle.Command.Report
import Entangle.Document
import Entangle.Text.Block

/-!
# Written reports

A report as text for a terminal, as a circuit in OpenQASM, or as a structured document.
-/

namespace Entangle.Command

/-- A line of the table of gates. -/
structure GateRow where
  name : String
  params : List Float
  qubits : List Int

namespace GateRow

def ofInstruction (i : Circuit.Instruction Float) : GateRow := ⟨i.name, i.params, i.qubits⟩

def cells (index : Nat) (row : GateRow) : List String :=
  let params := if row.params.isEmpty then "" else Gate.formatParams row.params
  [toString index, row.name, params, "[" ++ " ".intercalate (row.qubits.map toString) ++ "]"]

/-- The gates in aligned columns, numbered from zero, under a line of headings. -/
def table (rows : List GateRow) : String :=
  Text.table (["#", "gate", "params", "qubits"] :: rows.mapIdx cells)

/-- A gate in a structured report; angles are left out where there are none. -/
def document (row : GateRow) : Document :=
  let params := if row.params.isEmpty then [] else [("params", Document.list (row.params.map .number))]
  .record ([("name", .text row.name)] ++ params ++ [("qubits", .list (row.qubits.map .integer))])

end GateRow

namespace WeylSummary

def lines (w : WeylSummary) : List String :=
  [w.fitted.name,
    "a=" ++ Decimal.places 6 w.a ++ "  b=" ++ Decimal.places 6 w.b ++ "  c=" ++ Decimal.places 6 w.c,
    "phase=" ++ Gate.formatParam w.phase ++ "  fidelity=" ++ Decimal.places 12 w.fidelity]

def document (w : WeylSummary) : Document :=
  .record [("specialization", .text w.fitted.name), ("a", .number w.a), ("b", .number w.b),
    ("c", .number w.c), ("global_phase", .number w.phase), ("fidelity", .number w.fidelity)]

end WeylSummary

namespace Report

def rows (r : Report) : List GateRow := r.instructions.map GateRow.ofInstruction

/-- The part of the text that is about the circuit. -/
def circuitText (r : Report) (x : Realization) : String :=
  "synthesized over " ++ x.synthesizer ++ s!", {x.gateCount} basis gate(s), euler " ++ r.euler.name ++
    ", phase " ++ Gate.formatParam x.circuit.phase ++ "\n" ++ GateRow.table r.rows

def text (r : Report) : String :=
  Text.block ("twoq · " ++ r.target) ++ "\n" ++ Text.box r.weyl.lines ++ "\n" ++
    (match r.realization with
      | some x => r.circuitText x
      | none => "")

/-- The report as a record. Without a circuit there is no synthesizer and no gate, and the count and the
phase are zero. -/
def document (r : Report) : Document :=
  let synthesizer := match r.realization with
    | some x => [("synthesizer", Document.text x.synthesizer)]
    | none => []
  let count := match r.realization with
    | some x => x.gateCount
    | none => 0
  let phase := match r.realization with
    | some x => x.circuit.phase
    | none => 0
  let gates := if r.rows.isEmpty then [] else [("gates", Document.list (r.rows.map GateRow.document))]
  .record ([("id", .text r.id), ("target", .text r.target)] ++ synthesizer ++
    [("euler_basis", .text r.euler.name), ("weyl", r.weyl.document), ("num_basis_gates", .integer count),
      ("global_phase", .number phase)] ++ gates)

def qasm (r : Report) : Except Failure String :=
  match r.realization with
  | some x => lift x.circuit.qasm
  | none => .error .noCircuit

def render (r : Report) : Format → Except Failure String
  | .text => .ok r.text
  | .qasm => r.qasm
  | .json => r.document.write.mapError .unwritable

end Report

end Entangle.Command
