import Mathlib
import Entangle.Circuit.Qasm
import Entangle.Proofs.DecimalText
import Entangle.Proofs.DenseStorage

/-!
# The text of a circuit

A circuit can be written if and only if every instruction has as many qubits as its operation acts on, all of them from
zero on; whatever has a unitary can be written. The text is four lines of declarations and then one line for each
instruction. Its register is the least that reaches past every qubit whose successor is a machine integer: the largest
machine integer, as a qubit, is outside of the register that is declared for it.
-/

namespace Entangle

/-- A gate as it is written: its name, and its angles in parentheses if it has any. -/
def Gate.callText (name : String) (params : List Float) : String :=
  name ++ if params.isEmpty then "" else "(" ++ ",".intercalate (params.map Gate.formatParam) ++ ")"

namespace Circuit

variable {α : Type}

/-! ## Instructions that can be written -/

/-- As many qubits as the operation acts on, none of them negative. -/
def Instruction.Writable (i : Instruction α) : Prop :=
  i.op.qubits = .ok (i.qubits.length : ℤ) ∧ ∀ q ∈ i.qubits, 0 ≤ q

/-- The line of an instruction: the gate with its angles, and its qubits in the register `q`. -/
def Instruction.line (i : Instruction Float) : String :=
  Gate.callText i.name i.params ++ " " ++ ",".intercalate (i.qubits.map fun q => s!"q[{q}]") ++ ";"

namespace Sequence

theorem checkWritable_eq_ok {index : ℕ} {i : Instruction α} : checkWritable index i = .ok () ↔ i.Writable := by
  rw [checkWritable, bind_eq_ok, Instruction.Writable]
  constructor
  · rintro ⟨arity, acts, checked⟩
    split at checked
    · cases checked
    next count =>
      rw [ne_eq, not_not] at count
      split at checked
      · cases checked
      next none =>
        refine ⟨count ▸ acts, fun q member => ?_⟩
        simpa using List.find?_eq_none.mp none q member
  · rintro ⟨acts, nonneg⟩
    refine ⟨_, acts, ?_⟩
    have none : i.qubits.find? (fun q => decide (q < 0)) = none :=
      List.find?_eq_none.mpr fun q member => by simpa using nonneg q member
    rw [if_neg (by simp), none]

theorem checkAllWritable_eq_ok {index : ℕ} {is : List (Instruction α)} :
    checkAllWritable index is = .ok () ↔ ∀ i ∈ is, i.Writable := by
  induction is generalizing index with
  | nil => simp [checkAllWritable]
  | cons i rest ih =>
    rw [checkAllWritable, bind_eq_ok, List.forall_mem_cons]
    constructor
    · rintro ⟨_, first, later⟩
      exact ⟨checkWritable_eq_ok.mp first, ih.mp later⟩
    · rintro ⟨first, later⟩
      exact ⟨(), checkWritable_eq_ok.mpr first, ih.mpr later⟩

theorem exists_qasmWith_iff {write : α → String} {s : Sequence α} :
    (∃ text, s.qasmWith write = .ok text) ↔ ∀ i ∈ s.instructions, i.Writable := by
  rw [← @checkAllWritable_eq_ok α 0 s.instructions]
  constructor
  · rintro ⟨text, written⟩
    obtain ⟨_, checked, -⟩ := bind_eq_ok.mp written
    exact checked
  · intro checked
    exact ⟨_, bind_eq_ok.mpr ⟨(), checked, rfl⟩⟩

/-! ## Circuits with a unitary -/

variable [Scalar α]

/-- The matrix of an instruction asks for more than its text: the qubits are two, and they differ. -/
theorem writable_of_twoQubitMatrix {index : ℕ} {i : Instruction α} {m : Mat4 α}
    (known : twoQubitMatrix index i = .ok m) : i.Writable := by
  obtain ⟨arity, acts, known⟩ := bind_eq_ok.mp known
  split at known
  · cases known
  next count =>
    rw [ne_eq, not_not] at count
    split at known
    · cases known
    next none =>
      refine ⟨count ▸ acts, fun q member => ?_⟩
      have inside := List.find?_eq_none.mp none q member
      simp only [Bool.or_eq_true, decide_eq_true_eq, not_or, not_lt] at inside
      exact inside.1

theorem writable_of_product {index : ℕ} {is : List (Instruction α)} {u v : Mat4 α}
    (computed : product twoQubitMatrix is index u = .ok v) : ∀ i ∈ is, i.Writable := by
  induction is generalizing index u with
  | nil => simp
  | cons i rest ih =>
    obtain ⟨m, known, computed⟩ := bind_eq_ok.mp computed
    exact List.forall_mem_cons.mpr ⟨writable_of_twoQubitMatrix known, ih computed⟩

theorem writable_of_unitary {s : Sequence α} {u : Mat4 α} (computed : s.unitary = .ok u) :
    ∀ i ∈ s.instructions, i.Writable := by
  obtain ⟨v, computed, -⟩ := bind_eq_ok.mp computed
  exact writable_of_product computed

omit [Scalar α]

/-! ## The width of the register -/

/-- The qubits that a circuit refers to. -/
def wires (s : Sequence α) : List ℤ := s.instructions.flatMap Instruction.qubits

/-- A width of the register that reaches past some qubits. -/
def Reaches (qubits : List ℤ) (width : ℤ) : Prop := 1 ≤ width ∧ ∀ q ∈ qubits, q < width

theorem width_isLeast (s : Sequence α) : IsLeast {w | 1 ≤ w ∧ ∀ q ∈ s.wires, word (q + 1) ≤ w} s.width := by
  have largest : (1 :: s.wires.map fun q => word (q + 1)).max? = some s.width := by
    rw [List.max?_cons', List.foldl_map, width, wires]
  obtain ⟨attained, bound⟩ := List.max?_eq_some_iff.mp largest
  rw [List.forall_mem_cons, List.forall_mem_map] at bound
  refine ⟨bound, fun w upper => ?_⟩
  rcases List.mem_cons.mp attained with least | found
  · exact least ▸ upper.1
  · obtain ⟨q, member, successor⟩ := List.mem_map.mp found
    exact successor ▸ upper.2 q member

section Width

variable {s : Sequence α} (nonneg : ∀ q ∈ s.wires, 0 ≤ q) (machine : ∀ q ∈ s.wires, q < wordLimit)
include nonneg machine

theorem reaches_iff {w : ℤ} : Reaches (s.wires.filter (· ≠ wordLimit - 1)) w ↔
    1 ≤ w ∧ ∀ q ∈ s.wires, word (q + 1) ≤ w := by
  simp only [Reaches, List.mem_filter, decide_eq_true_eq, and_imp]
  refine and_congr_right fun least => forall₂_congr fun q member => ?_
  have low := nonneg q member
  have high := machine q member
  by_cases last : q = wordLimit - 1
  · have wrapped : word (q + 1) < 0 := by
      rw [last, sub_add_cancel]
      exact word_wordLimit
    exact iff_of_true (fun other => absurd last other) (by omega)
  · rw [word_of_nonneg (by omega) (by omega)]
    constructor
    · intro past
      exact past last
    · intro past _
      exact past

/-- The register is the least that reaches past every qubit but the largest machine integer. -/
theorem isLeast_width : IsLeast {w | Reaches (s.wires.filter (· ≠ wordLimit - 1)) w} s.width := by
  have same : {w | Reaches (s.wires.filter (· ≠ wordLimit - 1)) w} = {w | 1 ≤ w ∧ ∀ q ∈ s.wires, word (q + 1) ≤ w} :=
    Set.ext fun w => reaches_iff nonneg machine
  rw [same]
  exact s.width_isLeast

omit nonneg machine in
theorem width_lt_wordLimit : s.width < wordLimit := by
  have reached : wordLimit - 1 ∈ {w | 1 ≤ w ∧ ∀ q ∈ s.wires, word (q + 1) ≤ w} := by
    refine ⟨by decide, fun q _ => ?_⟩
    have := word_lt (q + 1)
    omega
  have := s.width_isLeast.2 reached
  omega

/-- It is the least that reaches past every qubit exactly where no qubit is the largest machine integer. -/
theorem isLeast_width_iff : IsLeast {w | Reaches s.wires w} s.width ↔ wordLimit - 1 ∉ s.wires := by
  constructor
  · intro least member
    have past := least.1.2 _ member
    have := width_lt_wordLimit (s := s)
    omega
  · intro absent
    have kept : s.wires.filter (· ≠ wordLimit - 1) = s.wires := by
      refine List.filter_eq_self.mpr fun q member => decide_eq_true ?_
      rintro rfl
      exact absent member
    simpa only [kept] using isLeast_width nonneg machine

end Width

/-! ## The lines -/

/-- The lines of a circuit: four that declare the format, the phase and the register, and those of the instructions. -/
def listing (s : Sequence Float) (width : ℤ) : List String :=
  ["OPENQASM 2.0;", "include \"qelib1.inc\";", "// global phase: " ++ Gate.formatParam s.phase, s!"qreg q[{width}];"] ++
    s.instructions.map Instruction.line

theorem instructionText_eq (i : Instruction Float) : instructionText Gate.formatParam i = i.line ++ "\n" := by
  simp only [instructionText, Instruction.line, Gate.callText, String.append_assoc]
  rfl

theorem qasm_eq_ok {s : Sequence Float} {text : String} (written : s.qasm = .ok text) :
    text = String.join ((s.listing s.width).map (· ++ "\n")) := by
  obtain ⟨_, -, result⟩ := bind_eq_ok.mp written
  rw [← Except.ok.inj result, listing]
  have lines : s.instructions.map (instructionText Gate.formatParam) =
      (s.instructions.map Instruction.line).map (· ++ "\n") := by
    rw [List.map_map]
    exact List.map_congr_left fun i _ => instructionText_eq i
  rw [lines]
  simp only [List.map_cons, List.cons_append, List.nil_append, String.join_cons, String.append_assoc]
  rfl

/-! ## Where the lines end -/

end Sequence

theorem Instruction.unbroken_line {i : Instruction Float} (plain : Text.Unbroken i.name) : Text.Unbroken i.line := by
  have angles : Text.Unbroken (",".intercalate (i.params.map Gate.formatParam)) :=
    Text.unbroken_intercalate (by decide) (List.forall_mem_map.mpr fun x _ => Gate.unbroken_formatParam x)
  have qubits : Text.Unbroken (",".intercalate (i.qubits.map fun q => s!"q[{q}]")) := by
    refine Text.unbroken_intercalate (by decide) (List.forall_mem_map.mpr fun q _ => ?_)
    exact Text.unbroken_append.mpr ⟨Text.unbroken_append.mpr ⟨by decide, Text.unbroken_toString q⟩, by decide⟩
  unfold line Gate.callText
  simp only [Text.unbroken_append]
  refine ⟨⟨⟨⟨plain, ?_⟩, by decide⟩, qubits⟩, by decide⟩
  split
  · decide
  · exact Text.unbroken_append.mpr ⟨Text.unbroken_append.mpr ⟨by decide, angles⟩, by decide⟩

namespace Sequence

/-- No line of the listing is broken by what stands in it. -/
theorem unbroken_listing {s : Sequence Float} (plain : ∀ i ∈ s.instructions, Text.Unbroken i.name) (width : ℤ) :
    ∀ line ∈ s.listing width, Text.Unbroken line := by
  rw [listing, List.forall_mem_append, List.forall_mem_map]
  refine ⟨?_, fun i member => Instruction.unbroken_line (plain i member)⟩
  simp only [List.forall_mem_cons, Text.unbroken_append]
  exact ⟨by decide, by decide, ⟨by decide, Gate.unbroken_formatParam s.phase⟩,
    ⟨⟨by decide, Text.unbroken_toString width⟩, by decide⟩, by simp⟩

/-! ## The whole text -/

/-- Which circuits have a text, what it consists of, and how wide a register it declares. -/
theorem qasm_lines (s : Sequence Float) (plain : ∀ i ∈ s.instructions, Text.Unbroken i.name)
    (machine : ∀ q ∈ s.wires, q < wordLimit) :
    ((∃ text, s.qasm = .ok text) ↔ ∀ i ∈ s.instructions, i.Writable) ∧
      (∀ text, s.qasm = .ok text → ∃ width,
        text = String.join ((s.listing width).map (· ++ "\n")) ∧ (∀ line ∈ s.listing width, Text.Unbroken line) ∧
          IsLeast {w | Reaches (s.wires.filter (· ≠ wordLimit - 1)) w} width ∧
          (IsLeast {w | Reaches s.wires w} width ↔ wordLimit - 1 ∉ s.wires)) ∧
      ∀ u, s.unitary = .ok u → ∃ text, s.qasm = .ok text := by
  refine ⟨exists_qasmWith_iff, fun text written => ?_, fun u computed => ?_⟩
  · have writable := exists_qasmWith_iff.mp ⟨text, written⟩
    have nonneg : ∀ q ∈ s.wires, 0 ≤ q := by
      intro q member
      obtain ⟨i, listed, used⟩ := List.mem_flatMap.mp member
      exact (writable i listed).2 q used
    exact ⟨s.width, qasm_eq_ok written, unbroken_listing plain s.width, isLeast_width nonneg machine,
      isLeast_width_iff nonneg machine⟩
  · exact exists_qasmWith_iff.mpr (writable_of_unitary computed)

/-- A rotation and a controlled-not. -/
theorem qasm_lines_rotated :
    let s : Sequence Float := ((empty 0.5).append (.standard .rz) [0.25] [1]).append (.standard .cx) [] [1, 0]
    (∀ i ∈ s.instructions, Text.Unbroken i.name) ∧ (∀ q ∈ s.wires, q < wordLimit) ∧ (∃ text, s.qasm = .ok text) := by
  intro s
  have plain : ∀ i ∈ s.instructions, Text.Unbroken i.name := by
    change ∀ i ∈ [_, _], _
    simp only [List.forall_mem_cons, Instruction.name]
    decide
  have machine : ∀ q ∈ s.wires, q < wordLimit := by
    change ∀ q ∈ [1, 1, 0], q < wordLimit
    decide
  have writable : ∀ i ∈ s.instructions, i.Writable := by
    change ∀ i ∈ [_, _], Instruction.Writable i
    simp only [List.forall_mem_cons]
    exact ⟨⟨rfl, by decide⟩, ⟨rfl, by decide⟩, by simp⟩
  exact ⟨plain, machine, (qasm_lines s plain machine).1.mpr writable⟩

/-- A gate on the largest machine integer is written beside a register of one qubit. -/
theorem width_wraps :
    let s : Sequence Float := (empty 0).append (.standard .h) [] [wordLimit - 1]
    s.qasm = .ok ("OPENQASM 2.0;\ninclude \"qelib1.inc\";\n// global phase: 0\nqreg q[1];\n" ++
        "h q[9223372036854775807];\n") ∧ ¬ Reaches s.wires 1 := by
  intro s
  have writable : ∀ i ∈ s.instructions, i.Writable := by
    change ∀ i ∈ [_], Instruction.Writable i
    simp only [List.forall_mem_cons]
    exact ⟨⟨rfl, by decide⟩, by simp⟩
  obtain ⟨text, written⟩ : ∃ text, s.qasm = .ok text := exists_qasmWith_iff.mpr writable
  refine ⟨?_, fun past => absurd (past.2 (wordLimit - 1) (by decide)) (by decide)⟩
  rw [written, qasm_eq_ok written]
  exact congrArg Except.ok (by decide +kernel)

end Sequence

end Circuit

end Entangle
