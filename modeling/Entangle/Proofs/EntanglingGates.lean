import Mathlib
import Entangle.Proofs.EmittedGates
import Entangle.Proofs.ThreeGatePulse

/-!
# Entangling gates in a circuit

Corrections are emitted on one qubit. What else a synthesis writes is the entangling gate, once between each
two layers of the plain circuit, and two or three times in the pulse forms: the sequence for a count of
gates has that many. This holds over every arithmetic.
-/

namespace Entangle

open Circuit (Sequence Instruction)
open Gate (Operation Standard)

variable {α : Type}

theorem Gate.Operation.isStandard_iff {op : Operation α} {g : Standard} : op.isStandard g ↔ op = .standard g := by
  cases op with
  | standard g' =>
    rw [Operation.standard.injEq]
    exact beq_iff_eq
  | undefined _ | family _ | custom _ => constructor <;> intro same <;> cases same

/-- Every instruction is on one qubit, or is the gate on two; the gate stands there a given number of
times. -/
structure Circuit.Sequence.Uses (s : Sequence α) (gate : Operation α) (n : ℕ) : Prop where
  each : ∀ i ∈ s.instructions, i.qubits.length = 1 ∨ i.qubits.length = 2 ∧ i.op = gate
  count : s.instructions.countP (fun i => i.qubits.length = 2) = n

namespace Circuit.Sequence.Uses

variable {s t : Sequence α} {gate op : Operation α} {n m : ℕ} {params : List α}

theorem empty (phase : α) : (Sequence.empty phase).Uses gate 0 := ⟨by simp [Sequence.empty], rfl⟩

theorem one (uses : s.Uses gate n) (q : ℤ) : (s.append op params [q]).Uses gate n := by
  refine ⟨fun i member => ?_, ?_⟩
  · rcases List.mem_append.mp member with old | new
    · exact uses.each i old
    · rw [List.mem_singleton.mp new]
      exact .inl rfl
  · rw [append, push, List.countP_append, uses.count]
    rfl

theorem two (uses : s.Uses gate n) (q r : ℤ) : (s.append gate params [q, r]).Uses gate (n + 1) := by
  refine ⟨fun i member => ?_, ?_⟩
  · rcases List.mem_append.mp member with old | new
    · exact uses.each i old
    · rw [List.mem_singleton.mp new]
      exact .inr ⟨rfl, rfl⟩
  · rw [append, push, List.countP_append, uses.count]
    rfl

variable [Scalar α]

theorem extend (first : s.Uses gate n) (second : t.Uses gate m) : (s.extend t).Uses gate (n + m) := by
  refine ⟨fun i member => ?_, ?_⟩
  · rcases List.mem_append.mp member with left | right
    · exact first.each i left
    · exact second.each i right
  · rw [Sequence.extend, List.countP_append, first.count, second.count]

theorem addPhase (uses : s.Uses gate n) (angle : α) : (s.addPhase angle).Uses gate n := ⟨uses.each, uses.count⟩

theorem subPhase (uses : s.Uses gate n) (angle : α) : (s.subPhase angle).Uses gate n := ⟨uses.each, uses.count⟩

end Circuit.Sequence.Uses

variable [Scalar α]

/-! ## Corrections -/

/-- A sequence for a one-qubit unitary has no gate on two qubits. -/
theorem Euler.uses_decompose {o : Options α} {s : Sequence α} {u : Mat2 α} {basis : Basis}
    (written : decompose u basis o = .ok s) (gate : Operation α) : s.Uses gate 0 := by
  have single (i : Instruction α) (member : i ∈ s.instructions) : i.qubits.length = 1 := by
    obtain ⟨g, -, -, qubit⟩ := over_decompose written i member
    rw [qubit, List.length_singleton]
  refine ⟨fun i member => .inl (single i member), List.countP_eq_zero.mpr fun i member => ?_⟩
  simp [single i member]

/-! ## Circuits -/

namespace Synthesis

open Weyl (Decomposition)

variable {d : Decomposer α} {s s' : Sequence α} {gate : Operation α} {n : ℕ}

omit [Scalar α] in
theorem Attempt.ofOutcome_eq_ok {β : Type} {outcome : Outcome α β} {result : β} :
    Attempt.ofOutcome outcome = .ok result ↔ outcome = .ok result :=
  mapError_eq_ok

namespace Decomposer

theorem uses_appendOneQubit {u : Mat2 α} {q : ℤ} (uses : s.Uses gate n) (appended : d.appendOneQubit s u q = .ok s') :
    s'.Uses gate n := by
  obtain ⟨t, written, result⟩ := bind_eq_ok.mp appended
  obtain rfl := Except.ok.inj result
  exact uses.extend (Euler.uses_decompose written gate)

theorem uses_appendLayer {layer : Layer α} (uses : s.Uses gate n) (appended : d.appendLayer s layer = .ok s') :
    s'.Uses gate n := by
  obtain ⟨t, right, left⟩ := bind_eq_ok.mp appended
  exact uses_appendOneQubit (uses_appendOneQubit uses right) left

/-- Between each two layers stands one entangling gate. -/
theorem uses_interleave {layers : List (Layer α)} (uses : s.Uses d.gate n) (joined : d.interleave layers s = .ok s') :
    s'.Uses d.gate (n + (layers.length - 1)) := by
  induction layers generalizing s n with
  | nil =>
    obtain rfl := Except.ok.inj joined
    exact uses
  | cons layer rest ih =>
    cases rest with
    | nil => exact uses_appendLayer uses joined
    | cons next others =>
      obtain ⟨t, appended, continued⟩ := bind_eq_ok.mp joined
      have counted := ih ((uses_appendLayer uses appended).two 0 1) continued
      have total : n + 1 + ((next :: others).length - 1) = n + ((layer :: next :: others).length - 1) := by
        simp only [List.length_cons]
        omega
      rwa [total] at counted

theorem length_corrections (d : Decomposer α) (n : Fin 4) (target : Decomposition α) :
    (d.corrections n target).length = n + 1 := by
  unfold corrections
  split <;> rfl

theorem uses_generic {n : Fin 4} {target : Decomposition α}
    (joined : d.generic n (d.corrections n target) target = .ok s) : s.Uses d.gate n := by
  have counted := uses_interleave (.empty _) joined
  rwa [length_corrections, Nat.add_sub_cancel, Nat.zero_add] at counted

/-! ## Pulse forms -/

theorem length_splitLayers {layers : List (Layer α)} {phase total : α} {splits : List (Split α)}
    (split : splitLayers layers phase = .ok (splits, total)) : splits.length = layers.length := by
  induction layers generalizing phase splits total with
  | nil =>
    obtain ⟨rfl, -⟩ := Prod.mk.inj (Except.ok.inj split)
    rfl
  | cons layer rest ih =>
    obtain ⟨r, -, next⟩ := bind_eq_ok.mp split
    obtain ⟨l, -, next⟩ := bind_eq_ok.mp next
    obtain ⟨⟨others, total'⟩, found, result⟩ := bind_eq_ok.mp next
    obtain ⟨rfl, -⟩ := Prod.mk.inj (Except.ok.inj result)
    exact congrArg (· + 1) (ih found)

theorem uses_twoGatePulse {layers : List (Layer α)} {target : Decomposition α} (three : layers.length = 3)
    (applied : d.twoGatePulse layers target = .ok s) : s.Uses (.standard .cx) 2 := by
  obtain ⟨⟨splits, phase⟩, split, rest⟩ := bind_eq_ok.mp (Attempt.ofOutcome_eq_ok.mp applied)
  obtain ⟨a, b, c, rfl⟩ := List.length_eq_three.mp ((length_splitLayers split).trans three)
  obtain ⟨t, first, last⟩ := bind_eq_ok.mp rest
  refine uses_appendLayer ?_ last
  have opened : t.Uses (.standard .cx) 0 := uses_appendLayer (.empty _) first
  exact ((((((opened.two 0 1).one 0).one 0).one 0).one 1).addPhase _).two 0 1

theorem uses_rootOrRotation {theta : α} {q : ℤ} (uses : s.Uses gate n)
    (turned : d.rootOrRotation s theta q = .ok s') : s'.Uses gate n := by
  unfold rootOrRotation at turned
  split at turned
  · obtain rfl := Except.ok.inj turned
    exact (uses.one q).subPhase _
  split at turned
  · cases turned
  · exact uses_appendOneQubit uses (Attempt.ofOutcome_eq_ok.mp turned)

theorem uses_threeStart {a b : Split α} {join : Join α} {phase : α} (started : d.threeStart a b join phase = .ok s) :
    s.Uses (.standard .cx) 1 := by
  obtain ⟨t, first, rest⟩ := bind_eq_ok.mp started
  have layer : t.Uses (.standard .cx) 0 := uses_appendLayer (.empty _) (Attempt.ofOutcome_eq_ok.mp first)
  have opened : (emit t .cx [] [1, 0]).Uses (.standard .cx) 1 := layer.two 1 0
  have turned : (if join.isOdd then (emit (emit t .cx [] [1, 0]) .rz [-b.right.middle] [0]).addPhase Scalar.pi
      else emit (emit t .cx [] [1, 0]) .rz [b.right.middle] [0]).Uses (.standard .cx) 1 := by
    split
    · exact (opened.one 0).addPhase _
    · exact opened.one 0
  dsimp only at rest
  split at rest
  · exact uses_rootOrRotation turned rest
  · obtain rfl := Except.ok.inj rest
    exact turned

theorem uses_threeFinish {b c e : Split α} (uses : s.Uses (.standard .cx) n) (finished : d.threeFinish b c e s = .ok s') :
    s'.Uses (.standard .cx) (n + 2) := by
  obtain ⟨t, second, rest⟩ := bind_eq_ok.mp finished
  obtain ⟨t', third, last⟩ := bind_eq_ok.mp rest
  have between : (emit (emit t .rz [b.left.last + c.left.first] [1]) .cx [] [1, 0]).Uses (.standard .cx) (n + 1) :=
    ((uses_rootOrRotation uses second).one 1).two 1 0
  have closing : (emit t' .cx [] [1, 0]).Uses (.standard .cx) (n + 2) :=
    (uses_rootOrRotation (between.one 0) third).two 1 0
  exact uses_appendLayer closing (Attempt.ofOutcome_eq_ok.mp last)

theorem uses_threeGatePulse {layers : List (Layer α)} {target : Decomposition α} (four : layers.length = 4)
    (applied : d.threeGatePulse layers target = .ok s) : s.Uses (.standard .cx) 3 := by
  obtain ⟨⟨splits, phase⟩, split, rest⟩ := bind_eq_ok.mp applied
  have length := (length_splitLayers (Attempt.ofOutcome_eq_ok.mp split)).trans four
  obtain ⟨a, b, c, e, rfl⟩ : ∃ a b c e, splits = [a, b, c, e] := by
    obtain ⟨a, others, rfl⟩ := List.exists_cons_of_length_eq_add_one length
    obtain ⟨b, c, e, rfl⟩ := List.length_eq_three.mp (Nat.succ.inj length)
    exact ⟨a, b, c, e, rfl⟩
  obtain ⟨t, sequenced, rest⟩ := bind_eq_ok.mp rest
  obtain ⟨u, -, tested⟩ := bind_eq_ok.mp rest
  split at tested
  · obtain rfl := Except.ok.inj tested
    rw [threeGateSequence_eq] at sequenced
    obtain ⟨start, started, finished⟩ := bind_eq_ok.mp sequenced
    exact uses_threeFinish (uses_threeStart started) finished
  · cases tested

/-- A gate set of a pulse form: rotations about `Z` and the square root of `X`. -/
def HasRoot (d : Decomposer α) : Prop := Standard.rz ∈ d.options.euler.gates ∧ Standard.sx ∈ d.options.euler.gates

omit [Scalar α] in
theorem hasRoot_iff : d.HasRoot ↔ d.options.euler = .zsx ∨ d.options.euler = .zsxx := by
  rw [HasRoot]
  generalize d.options.euler = basis
  cases basis <;> decide

/-- The pulse form for more than one entangling gate. -/
def pulseForm (d : Decomposer α) (n : Fin 4) (layers : List (Layer α)) (target : Decomposition α) :
    Attempt α (Sequence α) :=
  if n = 2 then d.twoGatePulse layers target else d.threeGatePulse layers target

/-- What becomes of a pulse form that does not apply. -/
def refusal (d : Decomposer α) (place : Place α) : Attempt α (Sequence α) :=
  .error (if d.options.pulse = .required then some (unsupported place) else none)

/-- None and one entangling gate have no pulse form. For more, the form is refused where the gate set, the gate or the
form itself does not apply, and is what it is otherwise. -/
theorem pulse_cases (d : Decomposer α) (n : Fin 4) (layers : List (Layer α)) (target : Decomposition α) :
    ((n = 0 ∨ n = 1) ∧ d.pulse n layers target = .error none) ∨
    ((n = 2 ∨ n = 3) ∧ (¬ (d.HasRoot ∧ d.gate = .standard .cx) ∨ d.pulseForm n layers target = .error none) ∧
      ∃ place, d.pulse n layers target = d.refusal place) ∨
    ((n = 2 ∨ n = 3) ∧ d.HasRoot ∧ d.gate = .standard .cx ∧ d.pulseForm n layers target ≠ .error none ∧
      d.pulse n layers target = d.pulseForm n layers target) := by
  by_cases few : n = 0 ∨ n = 1
  · exact .inl ⟨few, by rw [pulse, if_pos few]⟩
  have several : n = 2 ∨ n = 3 := by
    rcases uses_cases n with rfl | rfl | two | three
    · exact absurd (.inl rfl) few
    · exact absurd (.inr rfl) few
    · exact .inl two
    · exact .inr three
  refine .inr ?_
  rw [hasRoot_iff]
  by_cases basis : d.options.euler = .zsx ∨ d.options.euler = .zsxx
  · have suited : ¬ (d.options.euler ≠ .zsx ∧ d.options.euler ≠ .zsxx) := by
      rintro ⟨notZsx, notZsxx⟩
      exact basis.elim notZsx notZsxx
    by_cases gate : d.gate = .standard .cx
    · have same : ¬ (!d.gate.isStandard .cx) = true := by simp [Operation.isStandard_iff.mpr gate]
      by_cases none : d.pulseForm n layers target = .error none
      · refine .inl ⟨several, .inr none, .pulseSearch, ?_⟩
        rw [pulseForm] at none
        rw [pulse, if_neg few, if_neg suited, if_neg same, none]
        rfl
      · refine .inr ⟨several, basis, gate, none, ?_⟩
        rw [pulse, if_neg few, if_neg suited, if_neg same, ← pulseForm]
        split
        next refused => exact absurd refused none
        next => rfl
    · have other : (!d.gate.isStandard .cx) = true := by
        simpa using fun same => gate (Operation.isStandard_iff.mp same)
      exact .inl ⟨several, .inl fun both => gate both.2, .pulseGate d.gate.name, by
        rw [pulse, if_neg few, if_neg suited, if_pos other, refusal]⟩
  · have unsuited : d.options.euler ≠ .zsx ∧ d.options.euler ≠ .zsxx := not_or.mp basis
    exact .inl ⟨several, .inl fun both => basis both.1, .pulseBasis d.options.euler.name, by
      rw [pulse, if_neg few, if_pos unsuited, refusal]⟩

/-- What a pulse form needs: two or three controlled-nots, and a gate set with rotations about `Z` and the square
root of `X`. -/
theorem pulse_eq_ok {n : Fin 4} {layers : List (Layer α)} {target : Decomposition α} :
    d.pulse n layers target = .ok s ↔
      (n = 2 ∨ n = 3) ∧ d.HasRoot ∧ d.gate = .standard .cx ∧ d.pulseForm n layers target = .ok s := by
  rcases d.pulse_cases n layers target with ⟨few, none⟩ | ⟨several, unsuited, place, refused⟩ | ⟨several, root, gate, -, same⟩
  · rw [none]
    constructor
    · intro applied
      cases applied
    · rintro ⟨several, -⟩
      omega
  · rw [refused]
    constructor
    · intro applied
      cases applied
    · rintro ⟨-, root, gate, applied⟩
      rcases unsuited with other | none
      · exact absurd ⟨root, gate⟩ other
      · cases none.symm.trans applied
  · rw [same]
    exact ⟨fun applied => ⟨several, root, gate, applied⟩, fun ⟨_, _, _, applied⟩ => applied⟩

/-- A pulse form has as many entangling gates as the plain circuit. -/
theorem uses_pulse {n : Fin 4} {target : Decomposition α} (applied : d.pulse n (d.corrections n target) target = .ok s) :
    s.Uses d.gate n := by
  obtain ⟨rfl | rfl, -, gate, formed⟩ := pulse_eq_ok.mp applied
  · exact gate ▸ uses_twoGatePulse (length_corrections d 2 target) formed
  · exact gate ▸ uses_threeGatePulse (length_corrections d 3 target) formed

/-- A circuit is a pulse form, or the plain circuit where none is looked for or found. -/
theorem realize_eq_ok {n : Fin 4} {target : Decomposition α} (realized : d.realize n target = .ok s) :
    d.options.pulse ≠ .off ∧ d.pulse n (d.corrections n target) target = .ok s ∨
      (d.options.pulse = .off ∨ d.pulse n (d.corrections n target) target = .error none) ∧
        d.generic n (d.corrections n target) target = .ok s := by
  unfold realize at realized
  dsimp only at realized
  split at realized
  next off => exact .inr ⟨.inl off, realized⟩
  next on =>
    split at realized
    next applied =>
      obtain rfl := Except.ok.inj realized
      exact .inl ⟨on, applied⟩
    next => cases realized
    next refused => exact .inr ⟨.inr refused, realized⟩

/-- The circuit for a count of entangling gates has that many, whichever form it takes. -/
theorem uses_realize {n : Fin 4} {target : Decomposition α} (realized : d.realize n target = .ok s) :
    s.Uses d.gate n := by
  rcases realize_eq_ok realized with ⟨-, applied⟩ | ⟨-, joined⟩
  · exact uses_pulse applied
  · exact uses_generic joined

end Decomposer

end Synthesis

end Entangle
