import Entangle.Euler.Emission

/-!
# The gates of a set

Each of the twelve sets for one-qubit unitaries is written over a fixed list of standard gates, each at as many
angles as it takes and on the qubit of the options, over every arithmetic.
-/

namespace Entangle

open Circuit (Instruction Sequence)
open Gate (Standard)

variable {α : Type}

/-- Every instruction is of a given kind. -/
def Circuit.Sequence.Over (s : Sequence α) (kind : Instruction α → Prop) : Prop := ∀ i ∈ s.instructions, kind i

namespace Circuit.Sequence.Over

variable {s t : Sequence α} {kind kind' : Instruction α → Prop}

theorem empty (phase : α) : (Sequence.empty phase).Over kind := fun _ member => absurd member List.not_mem_nil

theorem push (each : s.Over kind) {i : Instruction α} (last : kind i) : (s.push i).Over kind := by
  intro j member
  rcases List.mem_append.mp member with old | new
  · exact each j old
  · rwa [List.mem_singleton.mp new]

theorem mono (each : s.Over kind) (wider : ∀ i, kind i → kind' i) : s.Over kind' := fun i member => wider i (each i member)

variable [Scalar α]

theorem extend (first : s.Over kind) (second : t.Over kind) : (s.extend t).Over kind := by
  intro i member
  rcases List.mem_append.mp member with left | right
  · exact first i left
  · exact second i right

theorem addPhase (each : s.Over kind) (angle : α) : (s.addPhase angle).Over kind := each

theorem subPhase (each : s.Over kind) (angle : α) : (s.subPhase angle).Over kind := each

end Circuit.Sequence.Over

namespace Euler

/-- The gates that a set is written over. -/
def Basis.gates : Basis → List Standard
  | .u3 => [.u3]
  | .u321 => [.u1, .u2, .u3]
  | .u => [.u]
  | .psx => [.p, .sx]
  | .u1x => [.u1, .rx]
  | .rr => [.r]
  | .zyz => [.rz, .ry]
  | .zxz => [.rz, .rx]
  | .xyx => [.rx, .ry]
  | .xzx => [.rx, .rz]
  | .zsx => [.rz, .sx]
  | .zsxx => [.rz, .sx, .x]

/-- An instruction of one of the listed gates on a given qubit. -/
def Emitted (listed : List Standard) (q : Int) (i : Instruction α) : Prop :=
  ∃ g ∈ listed, i.op = .standard g ∧ i.qubits = [q]

/-- An instruction of one of the listed gates on a given qubit, at as many angles as the gate takes. -/
def Written (listed : List Standard) (q : Int) (i : Instruction α) : Prop :=
  ∃ g ∈ listed, i.op = .standard g ∧ i.qubits = [q] ∧ i.params.length = g.angles

theorem Written.emitted {listed : List Standard} {q : Int} {i : Instruction α} (written : Written listed q i) :
    Emitted listed q i := by
  obtain ⟨g, member, gate, qubit, -⟩ := written
  exact ⟨g, member, gate, qubit⟩

variable {o : Options α} {s : Sequence α} {listed : List Standard}

theorem over_emit (each : s.Over (Written listed o.qubit)) {g : Standard} (member : g ∈ listed) {params : List α}
    (count : params.length = g.angles) : (o.emit s g params).Over (Written listed o.qubit) :=
  each.push ⟨g, member, rfl, rfl, count⟩

variable [Scalar α]

theorem over_rotation (each : s.Over (Written listed o.qubit)) {g : Standard} (member : g ∈ listed) (single : g.angles = 1)
    (angle : α) : (rotation o g angle s).Over (Written listed o.qubit) := by
  unfold rotation
  dsimp only
  split
  · exact each.addPhase _
  · exact over_emit (each.addPhase _) member single.symm

theorem over_threeRotations {outer middle : Standard} (outerSingle : outer.angles = 1) (middleSingle : middle.angles = 1)
    (a : Angles α) : (threeRotations o outer middle a).Over (Written [outer, middle] o.qubit) := by
  have start : (Sequence.empty (0 + a.phase)).Over (Written [outer, middle] o.qubit) := .empty _
  have first : outer ∈ [outer, middle] := List.mem_cons_self
  have second : middle ∈ [outer, middle] := List.mem_cons_of_mem _ List.mem_cons_self
  unfold threeRotations
  dsimp only
  split
  · exact over_rotation start first outerSingle _
  · exact over_rotation (over_rotation (over_rotation start first outerSingle _) second middleSingle _) first outerSingle _

/-- The gates of the sets with one gate for every unitary. -/
def Generic.gates : Generic → List Standard
  | .u3 => [.u3]
  | .u => [.u]
  | .fewest => [.u1, .u2, .u3]

theorem over_oneGate (kind : Generic) (a : Angles α) : (oneGate o kind a).Over (Written kind.gates o.qubit) := by
  have start (phase : α) : (Sequence.empty phase).Over (Written kind.gates o.qubit) := .empty _
  unfold oneGate
  dsimp only
  split
  next few =>
    have one : Standard.u1 ∈ kind.gates := by
      rw [few.1]
      decide
    split
    · exact start _
    · exact over_emit (start _) one rfl
  split
  next few =>
    have two : Standard.u2 ∈ kind.gates := by
      rw [few.1]
      decide
    exact over_emit (start _) two rfl
  split
  · exact start _
  split
  next plain =>
    have three : Standard.u ∈ kind.gates := by
      rw [plain]
      decide
    exact over_emit (start _) three rfl
  next other =>
    have three : Standard.u3 ∈ kind.gates := by
      revert other
      cases kind <;> decide
    exact over_emit (start _) three rfl

/-- The gates of a set that is built on the square root of `X`. -/
def RootX.gates (k : RootX) : List Standard :=
  [k.aboutZ, if k.rotates then .rx else .sx] ++ if k.hasX then [.x] else []

theorem over_turnZ {k : RootX} (single : k.aboutZ.angles = 1) (each : s.Over (Written k.gates o.qubit)) (angle : α) :
    (k.turnZ o angle s).Over (Written k.gates o.qubit) := by
  have turn : k.aboutZ ∈ k.gates := by simp [RootX.gates]
  unfold RootX.turnZ
  dsimp only
  split
  · exact each.addPhase _
  split
  · exact over_emit ((each.addPhase _).subPhase _) turn single.symm
  · exact over_emit (each.addPhase _) turn single.symm

theorem over_root {k : RootX} (each : s.Over (Written k.gates o.qubit)) : (k.root o s).Over (Written k.gates o.qubit) := by
  unfold RootX.root
  split
  next rotates => exact over_emit (each.addPhase _) (by simp [RootX.gates, rotates]) rfl
  next plain => exact over_emit each (by simp [RootX.gates, plain]) rfl

theorem over_rootSequence {k : RootX} (single : k.aboutZ.angles = 1) (a : Angles α) :
    (rootSequence o k a).Over (Written k.gates o.qubit) := by
  have start : (Sequence.empty (0 + a.phase)).Over (Written k.gates o.qubit) := .empty _
  unfold rootSequence
  dsimp only
  split
  · exact over_turnZ single start _
  split
  · exact over_turnZ single (over_root (over_turnZ single (start.subPhase _) _)) _
  · refine over_turnZ single ?_ _
    split
    next flips =>
      have hasX : Standard.x ∈ k.gates := by
        rw [Bool.and_eq_true] at flips
        simp [RootX.gates, flips.1]
      exact over_emit ((over_turnZ single (start.subPhase _) _).addPhase _) hasX rfl
    · exact over_root (over_turnZ single (over_root (over_turnZ single (start.subPhase _) _)) _)

theorem over_equatorial (a : Angles α) : (equatorial o a).Over (Written [.r] o.qubit) := by
  have start (phase : α) : (Sequence.empty phase).Over (Written [.r] o.qubit) := .empty _
  have one : Standard.r ∈ [Standard.r] := List.mem_cons_self
  unfold equatorial
  dsimp only
  split
  · split
    · exact (start _).addPhase _
    · exact over_emit (over_emit (start _) one rfl) one rfl
  · refine over_emit ?_ one rfl
    split
    · exact (start _).addPhase _
    · exact over_emit (over_emit (start _) one rfl) one rfl

/-- A sequence for a one-qubit unitary is written over the gates of its set. -/
theorem written_decompose {u : Mat2 α} {basis : Basis} (written : decompose u basis o = .ok s) :
    s.Over (Written basis.gates o.qubit) := by
  unfold decompose at written
  split at written
  · obtain rfl := Except.ok.inj written
    cases basis with
    | zyz | zxz | xyx | xzx => exact over_threeRotations rfl rfl _
    | u3 => exact over_oneGate .u3 _
    | u => exact over_oneGate .u _
    | u321 => exact over_oneGate .fewest _
    | zsx => exact over_rootSequence (k := .zsx) rfl _
    | zsxx => exact over_rootSequence (k := .zsxx) rfl _
    | psx => exact over_rootSequence (k := .psx) rfl _
    | u1x => exact over_rootSequence (k := .u1x) rfl _
    | rr => exact over_equatorial _
  · cases written

theorem over_decompose {u : Mat2 α} {basis : Basis} (written : decompose u basis o = .ok s) :
    s.Over (Emitted basis.gates o.qubit) :=
  (written_decompose written).mono fun _ => Written.emitted

end Euler

end Entangle
