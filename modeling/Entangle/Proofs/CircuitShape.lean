import Mathlib
import Entangle.Circuit.Qasm
import Entangle.Proofs.EntanglingGates
import Entangle.Proofs.SingleUse
import Entangle.Proofs.StandardGates

/-!
# The shape of a circuit

A circuit over a standard gate is made of two kinds of instructions: corrections, which are gates of the Euler basis
on one of the qubits, and the entangling gate. The gate stands on the qubits in order, but for the pulse form with three
controlled-nots, where all of them are reversed. Every gate has as many angles as it takes, so that the circuit has
a unitary and can be written as text, over every arithmetic.
-/

namespace Entangle

open Circuit (Sequence Instruction)
open Gate (Operation Standard)

variable {α : Type}

/-! ## Circuits that can be carried out -/

namespace Circuit

/-- A standard gate at as many angles as it takes, on one of the two qubits or on both in either order. -/
def Instruction.Sound (i : Instruction α) : Prop :=
  ∃ g : Standard, i.op = .standard g ∧ i.params.length = g.angles ∧
    (g.qubits = 1 ∧ (i.qubits = [0] ∨ i.qubits = [1]) ∨ g.qubits = 2 ∧ (i.qubits = [0, 1] ∨ i.qubits = [1, 0]))

namespace Instruction.Sound

variable {i : Instruction α}

theorem writable (sound : i.Sound) (index : ℕ) : Sequence.checkWritable index i = .ok () := by
  obtain ⟨op, params, qubits⟩ := i
  obtain ⟨g, rfl, -, ⟨arity, rfl | rfl⟩ | ⟨arity, rfl | rfl⟩⟩ := sound <;>
    simp [Sequence.checkWritable, Operation.qubits, arity, bind, Except.bind]

theorem exists_matrix [Scalar α] (sound : i.Sound) (index : ℕ) : ∃ m, Sequence.twoQubitMatrix index i = .ok m := by
  obtain ⟨op, params, qubits⟩ := i
  obtain ⟨g, rfl, count, placed⟩ := sound
  rcases Standard.exists_matrix count with ⟨one, m, known⟩ | ⟨two, m, known⟩
  · rcases placed with ⟨-, rfl | rfl⟩ | ⟨two, -⟩
    · exact ⟨_, Sequence.twoQubitMatrix_single known one (.inl rfl) index⟩
    · exact ⟨_, Sequence.twoQubitMatrix_single known one (.inr rfl) index⟩
    · omega
  · have arity : (Operation.standard g : Operation α).qubits = .ok 2 := by rw [Operation.qubits, two, Nat.cast_ofNat]
    have stored := Operation.matrix4_standard known
    rcases placed with ⟨one, -⟩ | ⟨-, rfl | rfl⟩
    · omega
    · exact ⟨m, Sequence.twoQubitMatrix_two arity stored index⟩
    · exact ⟨m.swapQubits, Sequence.twoQubitMatrix_swapped arity stored index⟩

end Instruction.Sound

namespace Sequence

variable {s : Sequence α}

theorem checkAllWritable_of_sound {is : List (Instruction α)} (each : ∀ i ∈ is, i.Sound) (index : ℕ) :
    checkAllWritable index is = .ok () := by
  induction is generalizing index with
  | nil => rfl
  | cons i rest ih =>
    rw [List.forall_mem_cons] at each
    exact bind_eq_ok.mpr ⟨(), each.1.writable index, ih each.2 (index + 1)⟩

/-- A circuit that can be carried out can be written, in whichever way its angles are. -/
theorem exists_qasm (sound : s.Over Instruction.Sound) (write : α → String) : ∃ text, s.qasmWith write = .ok text :=
  ⟨_, bind_eq_ok.mpr ⟨(), checkAllWritable_of_sound sound 0, rfl⟩⟩

variable [Scalar α]

theorem exists_product {is : List (Instruction α)} (each : ∀ i ∈ is, i.Sound) (index : ℕ) (u : Mat4 α) :
    ∃ v, product twoQubitMatrix is index u = .ok v := by
  induction is generalizing index u with
  | nil => exact ⟨u, rfl⟩
  | cons i rest ih =>
    rw [List.forall_mem_cons] at each
    obtain ⟨m, known⟩ := each.1.exists_matrix index
    obtain ⟨v, computed⟩ := ih each.2 (index + 1) (m * u)
    exact ⟨v, bind_eq_ok.mpr ⟨m, known, computed⟩⟩

/-- It has a unitary. -/
theorem exists_unitary (sound : s.Over Instruction.Sound) : ∃ w, s.unitary = .ok w := by
  obtain ⟨v, computed⟩ := exists_product sound 0 Square.identity
  exact ⟨_, bind_eq_ok.mpr ⟨v, computed, rfl⟩⟩

end Sequence

end Circuit

/-! ## Corrections and the entangling gate -/

/-- A correction of the gate set on one of the qubits, or the entangling gate as it stands between the corrections. -/
def Circuit.Instruction.Woven (listed : List Standard) (entangler i : Instruction α) : Prop :=
  Euler.Written listed 0 i ∨ Euler.Written listed 1 i ∨ i = entangler

theorem Euler.Basis.qubits_of_mem {basis : Basis} {g : Standard} (member : g ∈ basis.gates) : g.qubits = 1 := by
  revert member
  cases basis <;> cases g <;> decide

theorem Circuit.Instruction.Woven.sound {basis : Euler.Basis} {entangler i : Instruction α}
    (woven : Instruction.Woven basis.gates entangler i) (sound : entangler.Sound) : i.Sound := by
  rcases woven with ⟨g, member, op, qubits, count⟩ | ⟨g, member, op, qubits, count⟩ | same
  · exact ⟨g, op, count, .inl ⟨Euler.Basis.qubits_of_mem member, .inl qubits⟩⟩
  · exact ⟨g, op, count, .inl ⟨Euler.Basis.qubits_of_mem member, .inr qubits⟩⟩
  · exact same ▸ sound

namespace Synthesis

open Weyl (Decomposition)

namespace Decomposer

variable [Scalar α] {d : Decomposer α} {s s' : Sequence α} {entangler : Instruction α}

theorem over_appendOneQubit {u : Mat2 α} {q : ℤ} (wire : q = 0 ∨ q = 1)
    (each : s.Over (Instruction.Woven d.options.euler.gates entangler)) (appended : d.appendOneQubit s u q = .ok s') :
    s'.Over (Instruction.Woven d.options.euler.gates entangler) := by
  obtain ⟨t, written, result⟩ := bind_eq_ok.mp appended
  obtain rfl := Except.ok.inj result
  refine each.extend ((Euler.written_decompose written).mono fun i correction => ?_)
  rcases wire with rfl | rfl
  · exact .inl correction
  · exact .inr (.inl correction)

theorem over_appendLayer {layer : Layer α} (each : s.Over (Instruction.Woven d.options.euler.gates entangler))
    (appended : d.appendLayer s layer = .ok s') : s'.Over (Instruction.Woven d.options.euler.gates entangler) := by
  obtain ⟨t, right, left⟩ := bind_eq_ok.mp appended
  exact over_appendOneQubit (.inr rfl) (over_appendOneQubit (.inl rfl) each right) left

/-- Between the layers of the plain circuit the gate stands on the qubits in order. -/
theorem over_interleave {layers : List (Layer α)}
    (each : s.Over (Instruction.Woven d.options.euler.gates ⟨d.gate, d.params, [0, 1]⟩))
    (joined : d.interleave layers s = .ok s') :
    s'.Over (Instruction.Woven d.options.euler.gates ⟨d.gate, d.params, [0, 1]⟩) := by
  induction layers generalizing s with
  | nil =>
    obtain rfl := Except.ok.inj joined
    exact each
  | cons layer rest ih =>
    cases rest with
    | nil => exact over_appendLayer each joined
    | cons next others =>
      obtain ⟨t, appended, continued⟩ := bind_eq_ok.mp joined
      exact ih ((over_appendLayer each appended).push (.inr (.inr rfl))) continued

/-! ## Pulse forms -/

omit [Scalar α] in
theorem woven_emit {g : Standard} {params : List α} {q : ℤ} (member : g ∈ d.options.euler.gates) (wire : q = 0 ∨ q = 1)
    (count : params.length = g.angles) (each : s.Over (Instruction.Woven d.options.euler.gates entangler)) :
    (emit s g params [q]).Over (Instruction.Woven d.options.euler.gates entangler) := by
  refine each.push ?_
  rcases wire with rfl | rfl
  · exact .inl ⟨g, member, rfl, rfl, count⟩
  · exact .inr (.inl ⟨g, member, rfl, rfl, count⟩)

/-- Corrections, and controlled-nots on given qubits. -/
def Weaves (d : Decomposer α) (qubits : List ℤ) (s : Sequence α) : Prop :=
  s.Over (Instruction.Woven d.options.euler.gates ⟨.standard .cx, [], qubits⟩)

omit [Scalar α] in
theorem Weaves.entangle {qubits : List ℤ} (each : d.Weaves qubits s) : d.Weaves qubits (emit s .cx [] qubits) :=
  each.push (.inr (.inr rfl))

omit [Scalar α] in
theorem Weaves.turn {qubits : List ℤ} {q : ℤ} (each : d.Weaves qubits s) (root : d.HasRoot) (angle : α)
    (wire : q = 0 ∨ q = 1) : d.Weaves qubits (emit s .rz [angle] [q]) :=
  woven_emit root.1 wire rfl each

omit [Scalar α] in
theorem Weaves.root {qubits : List ℤ} {q : ℤ} (each : d.Weaves qubits s) (root : d.HasRoot) (wire : q = 0 ∨ q = 1) :
    d.Weaves qubits (emit s .sx [] [q]) :=
  woven_emit root.2 wire rfl each

/-- The pulse form for two controlled-nots has them on the qubits in order. -/
theorem over_twoGatePulse {layers : List (Layer α)} {target : Decomposition α} (root : d.HasRoot)
    (three : layers.length = 3) (applied : d.twoGatePulse layers target = .ok s) :
    d.Weaves [0, 1] s := by
  obtain ⟨⟨splits, phase⟩, split, rest⟩ := bind_eq_ok.mp (Attempt.ofOutcome_eq_ok.mp applied)
  obtain ⟨a, b, c, rfl⟩ := List.length_eq_three.mp ((length_splitLayers split).trans three)
  obtain ⟨t, first, last⟩ := bind_eq_ok.mp rest
  refine over_appendLayer ?_ last
  have layer : d.Weaves [0, 1] t := over_appendLayer (.empty _) first
  have rooted := ((layer.entangle.root root (.inl rfl)).turn root (b.right.middle - Scalar.pi) (.inl rfl)).root root (.inl rfl)
  have turned := rooted.turn root b.left.middle (.inr rfl)
  exact Weaves.entangle (turned.addPhase _)

theorem over_rootOrRotation {theta : α} {q : ℤ} (root : d.HasRoot) (wire : q = 0 ∨ q = 1)
    (each : s.Over (Instruction.Woven d.options.euler.gates entangler)) (turned : d.rootOrRotation s theta q = .ok s') :
    s'.Over (Instruction.Woven d.options.euler.gates entangler) := by
  unfold rootOrRotation at turned
  split at turned
  · obtain rfl := Except.ok.inj turned
    exact (woven_emit root.2 wire rfl each).subPhase _
  split at turned
  · cases turned
  · exact over_appendOneQubit wire each (Attempt.ofOutcome_eq_ok.mp turned)

theorem over_threeStart {a b : Split α} {join : Join α} {phase : α} (root : d.HasRoot)
    (started : d.threeStart a b join phase = .ok s) :
    d.Weaves [1, 0] s := by
  obtain ⟨t, first, rest⟩ := bind_eq_ok.mp started
  have layer : d.Weaves [1, 0] t := over_appendLayer (.empty _) (Attempt.ofOutcome_eq_ok.mp first)
  have turned : d.Weaves [1, 0] (if join.isOdd then (emit (emit t .cx [] [1, 0]) .rz [-b.right.middle] [0]).addPhase Scalar.pi
      else emit (emit t .cx [] [1, 0]) .rz [b.right.middle] [0]) := by
    split
    · exact Sequence.Over.addPhase (layer.entangle.turn root _ (.inl rfl)) _
    · exact layer.entangle.turn root _ (.inl rfl)
  dsimp only at rest
  split at rest
  · exact over_rootOrRotation root (.inl rfl) turned rest
  · obtain rfl := Except.ok.inj rest
    exact turned

theorem over_threeFinish {b c e : Split α} (root : d.HasRoot)
    (each : d.Weaves [1, 0] s)
    (finished : d.threeFinish b c e s = .ok s') :
    d.Weaves [1, 0] s' := by
  obtain ⟨t, second, rest⟩ := bind_eq_ok.mp finished
  obtain ⟨t', third, last⟩ := bind_eq_ok.mp rest
  have rotated : d.Weaves [1, 0] t := over_rootOrRotation root (.inr rfl) each second
  have between := (rotated.turn root (b.left.last + c.left.first) (.inr rfl)).entangle.turn root c.right.middle (.inl rfl)
  have closing : d.Weaves [1, 0] t' := over_rootOrRotation root (.inr rfl) between third
  exact over_appendLayer closing.entangle (Attempt.ofOutcome_eq_ok.mp last)

/-- All controlled-nots of the pulse form for three of them are reversed, also before the comparison with the target. -/
theorem over_threeGateSequence {a b c e : Split α} {phase : α} (root : d.HasRoot)
    (sequenced : d.threeGateSequence a b c e phase = .ok s) :
    d.Weaves [1, 0] s := by
  rw [threeGateSequence_eq] at sequenced
  obtain ⟨start, started, finished⟩ := bind_eq_ok.mp sequenced
  exact over_threeFinish root (over_threeStart root started) finished

theorem over_threeGatePulse {layers : List (Layer α)} {target : Decomposition α} (root : d.HasRoot)
    (applied : d.threeGatePulse layers target = .ok s) :
    d.Weaves [1, 0] s := by
  obtain ⟨⟨splits, phase⟩, split, rest⟩ := bind_eq_ok.mp applied
  dsimp only at rest
  split at rest
  · obtain ⟨t, sequenced, rest⟩ := bind_eq_ok.mp rest
    obtain ⟨u, -, tested⟩ := bind_eq_ok.mp rest
    split at tested
    · obtain rfl := Except.ok.inj tested
      exact over_threeGateSequence root sequenced
    · cases tested
  · cases rest

/-! ## Synthesis -/

/-- The pulse form for three entangling gates is looked for and found. -/
def Reverses (d : Decomposer α) (n : Fin 4) (target : Decomposition α) : Prop :=
  n = 3 ∧ d.options.pulse ≠ .off ∧ ∃ s, d.pulse n (d.corrections n target) target = .ok s

/-- The entangling gate is reversed in the pulse form for three, and stands on the qubits in order in every other
circuit. -/
theorem over_realize {n : Fin 4} {target : Decomposition α} (plain : d.gate = .standard .cx → d.params = [])
    (realized : d.realize n target = .ok s) :
    (d.Reverses n target → s.Over (Instruction.Woven d.options.euler.gates ⟨d.gate, d.params, [1, 0]⟩)) ∧
      (¬ d.Reverses n target → s.Over (Instruction.Woven d.options.euler.gates ⟨d.gate, d.params, [0, 1]⟩)) := by
  rcases realize_eq_ok realized with ⟨on, applied⟩ | ⟨unformed, joined⟩
  · obtain ⟨rfl | rfl, root, gate, formed⟩ := pulse_eq_ok.mp applied
    · have two : d.twoGatePulse (d.corrections 2 target) target = .ok s := formed
      have each := over_twoGatePulse root (length_corrections d 2 target) two
      rw [gate, plain gate]
      exact ⟨fun reverses => absurd reverses.1 (by decide), fun _ => each⟩
    · have three : d.threeGatePulse (d.corrections 3 target) target = .ok s := formed
      have each := over_threeGatePulse root three
      rw [gate, plain gate]
      exact ⟨fun _ => each, fun other => absurd ⟨rfl, on, s, applied⟩ other⟩
  · refine ⟨fun ⟨_, on, t, applied⟩ => ?_, fun _ => over_interleave (.empty _) joined⟩
    rcases unformed with off | refused
    · exact absurd off on
    · cases applied.symm.trans refused

/-- A circuit over a standard gate is made of the gate with its angles, as often as the count says, on the two qubits
in one order, and of corrections of the gate set on one qubit; it has a unitary and can be written. -/
theorem synthesize_shape {g : Standard} {params : List α} {o : Options α} {u : Mat4 α} {r : Request α}
    (built : ofGate (.standard g) params o = .ok d) (synthesized : d.synthesize u r = .ok s) :
    ∃ target, Decomposition.ofUnitary u .default = .ok target ∧
      (d.Reverses (d.countFor target r) target → s.Over (Instruction.Woven o.euler.gates ⟨.standard g, params, [1, 0]⟩)) ∧
      (¬ d.Reverses (d.countFor target r) target →
        s.Over (Instruction.Woven o.euler.gates ⟨.standard g, params, [0, 1]⟩)) ∧
      s.instructions.countP (fun i => i.qubits.length = 2) = d.countFor target r ∧
      (∃ w, s.unitary = .ok w) ∧ ∀ write, ∃ text, s.qasmWith write = .ok text := by
  obtain ⟨m, stored, two, -, parts⟩ := ofGate_eq_ok built
  have gateIs : d.gate = .standard g := by rw [parts]
  have paramsAre : d.params = params := by rw [parts]
  have optionsAre : d.options = o := by rw [parts]
  have arity : g.qubits = 2 := by exact_mod_cast Except.ok.inj two
  have count : params.length = g.angles := by
    obtain ⟨dense, known, -⟩ := bind_eq_ok.mp stored
    unfold Operation.matrix at known
    dsimp only at known
    split at known
    next found => exact Standard.length_of_matrix found
    next => cases known
  have plain : d.gate = .standard .cx → d.params = [] := by
    rw [gateIs, paramsAre]
    intro controlled
    obtain rfl := Operation.standard.inj controlled
    exact List.length_eq_zero_iff.mp count
  obtain ⟨target, fitted, realized⟩ := bind_eq_ok.mp (Outcome.step_eq_ok.mp synthesized)
  obtain ⟨reversed, ordered⟩ := over_realize plain realized
  rw [gateIs, paramsAre, optionsAre] at reversed ordered
  have sound : s.Over Instruction.Sound := by
    by_cases reverses : d.Reverses (d.countFor target r) target
    · exact (reversed reverses).mono fun i woven => woven.sound ⟨g, rfl, count, .inr ⟨arity, .inr rfl⟩⟩
    · exact (ordered reverses).mono fun i woven => woven.sound ⟨g, rfl, count, .inr ⟨arity, .inl rfl⟩⟩
  exact ⟨target, fitted, reversed, ordered, (uses_realize realized).count, Sequence.exists_unitary sound,
    Sequence.exists_qasm sound⟩

open Weyl (single) in
/-- A quarter turn about the first axis over the quarter turn about the third. -/
theorem synthesize_shape_quarterTurn :
    ∃ (d : Decomposer ℝ) (s : Sequence ℝ) (n : Fin 4), ofGate (.standard .rzz) [Real.pi / 2] ⟨1, .zsx, .off⟩ = .ok d ∧
      d.synthesize (single .x (Real.pi / 4)) .default = .ok s ∧
      s.Over (Instruction.Woven [.rz, .sx] ⟨.standard .rzz, [Real.pi / 2], [0, 1]⟩) ∧
      s.instructions.countP (fun i => i.qubits.length = 2) = n ∧ (∃ w, s.unitary = .ok w) ∧
      ∀ write, ∃ text, s.qasmWith write = .ok text := by
  have pi := Real.pi_gt_three
  have quarter : |Real.pi / 4| = Real.pi / 4 := abs_of_pos (by linarith)
  have half : |Real.pi / 2| = Real.pi / 2 := abs_of_pos (by linarith)
  obtain ⟨d, built, options, -⟩ := ofGate_rzz ⟨1, .zsx, .off⟩ (Real.pi / 2) (by linarith) (by linarith)
  obtain ⟨target, fitted, -⟩ := Weyl.ofUnitary_single .x (t := Real.pi / 4) (by linarith) (by linarith)
  obtain ⟨s, synthesized, -⟩ := exists_synthesize (by rw [options]) fitted .default
  obtain ⟨target', -, -, ordered, count, computed, written⟩ := synthesize_shape built synthesized
  have off : ¬ d.Reverses (d.countFor target' .default) target' := fun reverses => reverses.2.1 (by rw [options])
  exact ⟨d, s, _, built, synthesized, ordered off, count, computed, written⟩

end Decomposer

end Synthesis

end Entangle
